import SymbolicAlgebra.Expr.ComplexConstant
import SymbolicAlgebra.Expr.Sign
import SymbolicAlgebra.Product.Coefficient
import SymbolicAlgebra.Product.LikeFactors
import SymbolicAlgebra.Proofs.CanonicalOperands

/-! What a tree has in common with the tree that has its operands in order. -/
namespace SymbolicAlgebra

namespace Expr

/-- The tree with the operands in order at every node. -/
def sorted (e : Expr) : Expr := (orderOperands e).expr

@[simp] theorem sorted_number (x : Numeral) : (number x).sorted = .number x := rfl

@[simp] theorem sorted_complex (z : ComplexNumeral) : (complex z).sorted = .complex z := rfl

@[simp] theorem sorted_ident (name : String) : (ident name).sorted = .ident name := rfl

@[simp] theorem sorted_call (f : NamedFunction) (xs : List Expr) :
    (call f xs).sorted = .call f (xs.map sorted) := by
  rw [sorted, orderOperands, everywhere_call]
  rfl

@[simp] theorem sorted_node (op : Operator) (xs : List Expr) :
    (node op xs).sorted = .node op (op.arranged (xs.map sorted)) :=
  orderOperands_node op xs

theorem sorted_of_ordered {e : Expr} (h : AllParts HasOrderedOperands e) : e.sorted = e :=
  congrArg Step.expr (orderOperands_of_ordered h)

theorem sorted_sorted (e : Expr) : e.sorted.sorted = e.sorted :=
  sorted_of_ordered (orderOperands_ordered e)

end Expr

namespace Operator

variable {op : Operator}

theorem arranged_of_not_associative (h : op.isAssociative = false) (xs : List Expr) :
    op.arranged xs = xs := by
  cases op <;> first | rfl | cases h

theorem length_arranged (op : Operator) (xs : List Expr) : (op.arranged xs).length = xs.length :=
  (arranged_perm op xs).length_eq

theorem arranged_singleton (op : Operator) (x : Expr) : op.arranged [x] = [x] :=
  List.perm_singleton.mp (arranged_perm op [x])

theorem arranged_nil (op : Operator) : op.arranged [] = [] := List.perm_nil.mp (arranged_perm op [])

end Operator

namespace Expr

theorem sorted_product (xs : List Expr) :
    (product xs).sorted = product (Operator.multiply.arranged (xs.map sorted)) := by
  match xs with
  | [] => rw [List.map_nil, Operator.arranged_nil]; rfl
  | [x] => rw [List.map_singleton, Operator.arranged_singleton]; rfl
  | x :: y :: rest =>
    have length := Operator.length_arranged .multiply ((x :: y :: rest).map sorted)
    rw [product, sorted_node]
    · generalize Operator.multiply.arranged ((x :: y :: rest).map sorted) = arranged at length ⊢
      rcases arranged with _ | ⟨z, _ | ⟨w, zs⟩⟩
      · cases length
      · cases length
      · rfl
    · intro same
      cases same
    · intro z same
      cases same

/-! ## Leaves and the kinds of nodes -/

variable (e : Expr)

@[simp] theorem number?_sorted : e.sorted.number? = e.number? := by cases e <;> simp [number?]

@[simp] theorem isNumber_sorted : e.sorted.isNumber = e.isNumber := by cases e <;> simp [isNumber]

@[simp] theorem isComplex_sorted : e.sorted.isComplex = e.isComplex := by
  cases e <;> simp [isComplex]

@[simp] theorem isZero_sorted : e.sorted.isZero = e.isZero := by cases e <;> simp [isZero]

@[simp] theorem isOne_sorted : e.sorted.isOne = e.isOne := by cases e <;> simp [isOne]

@[simp] theorem isNaN_sorted : e.sorted.isNaN = e.isNaN := by cases e <;> simp [isNaN]

@[simp] theorem isIdent_sorted (name : String) : e.sorted.isIdent name = e.isIdent name := by
  cases e <;> simp [isIdent]

@[simp] theorem isNode_sorted (op : Operator) : e.sorted.isNode op = e.isNode op :=
  isNode_orderOperands op e

@[simp] theorem isNumeralFactor_sorted : e.sorted.isNumeralFactor = e.isNumeralFactor := by
  rw [isNumeralFactor, isNumber_sorted, isComplex_sorted, isNumeralFactor]

theorem sides?_of_ne {op o : Operator} (h : o ≠ op) (xs : List Expr) :
    (node o xs).sides? op = none := by
  unfold sides?
  split
  · rename_i same
    cases same
    exact if_neg h
  · rfl

/-- The two sides of a node whose operands have no order stay where they are. -/
theorem sides?_sorted (op : Operator) (unordered : op.isAssociative = false) :
    e.sorted.sides? op = (e.sides? op).map fun p => (p.1.sorted, p.2.sorted) := by
  cases e with
  | node o xs =>
    rw [sorted_node]
    by_cases same : o = op
    · subst same
      rw [Operator.arranged_of_not_associative unordered]
      match xs with
      | [] => rfl
      | [_] => rfl
      | [a, b] => simp [sides?]
      | _ :: _ :: _ :: _ => rfl
    · rw [sides?_of_ne same, sides?_of_ne same]
      rfl
  | call f xs => rw [sorted_call]; rfl
  | _ => rfl

/-- The rational value of two numerals above and below a bar. -/
theorem rational?_node (op : Operator) (xs : List Expr) : (node op xs).rational? =
    ((node op xs).sides? .divide).bind fun p =>
      match p.1.number?, p.2.number? with
      | some (.exact a), some (.exact b) => if b = 0 then none else some (a / b)
      | _, _ => none := by
  unfold rational?
  split
  · rename_i same
    cases same
  · rename_i a b same
    cases same
    rfl
  · rename_i other
    cases found : (node op xs).sides? .divide with
    | none => rfl
    | some p =>
      obtain ⟨n, d⟩ := p
      rw [eq_node_of_sides? found] at other
      rw [Option.bind_some]
      split
      · rename_i a b hn hd
        cases n <;> cases hn
        cases d <;> cases hd
        exact absurd rfl (other a b)
      · rfl

@[simp] theorem rational?_sorted : e.sorted.rational? = e.rational? := by
  cases e with
  | node op xs =>
    have sides := sides?_sorted (node op xs) .divide rfl
    rw [sorted_node] at sides ⊢
    rw [rational?_node, rational?_node, sides, Option.bind_map]
    simp only [Function.comp_def, number?_sorted]
  | call f xs => rw [sorted_call]; rfl
  | _ => rfl

@[simp] theorem numeral?_sorted : e.sorted.numeral? = e.numeral? := by
  have values : e.sorted.rational?.map Numeral.exact = e.rational?.map Numeral.exact := by
    rw [rational?_sorted]
  cases e with
  | number x => rfl
  | call f xs => rw [sorted_call] at values ⊢; exact values
  | node op xs => rw [sorted_node] at values ⊢; exact values
  | _ => exact values

@[simp] theorem complex?_sorted : e.sorted.complex? = e.complex? := by
  have values : e.sorted.numeral?.map ComplexNumeral.ofReal =
      e.numeral?.map ComplexNumeral.ofReal := by rw [numeral?_sorted]
  cases e with
  | complex z => rfl
  | call f xs => rw [sorted_call] at values ⊢; exact values
  | node op xs => rw [sorted_node] at values ⊢; exact values
  | _ => exact values

theorem factors_sorted :
    e.sorted.factors = Operator.multiply.arranged (e.factors.map sorted) := by
  cases e with
  | node op xs =>
    rw [sorted_node]
    by_cases product : op = .multiply
    · subst product
      rfl
    · cases op <;>
        first | exact absurd rfl product | simp [factors, Operator.arranged_singleton]
  | call f xs => rw [sorted_call]; simp [factors, Operator.arranged_singleton]
  | _ => simp [factors, Operator.arranged_singleton]

theorem asPower_eq : e.asPower = (e.sides? .power).getD (e, one) := by
  unfold asPower
  split
  · rfl
  · rename_i other
    rw [sides?_eq_none other]
    rfl

theorem asPower_sorted : e.sorted.asPower = (e.asPower.1.sorted, e.asPower.2.sorted) := by
  rw [asPower_eq, asPower_eq, sides?_sorted e .power rfl]
  cases e.sides? .power <;> rfl

theorem argument?_sorted (f : NamedFunction) :
    e.sorted.argument? f = (e.argument? f).map sorted := by
  cases e with
  | call g xs =>
    rw [sorted_call]
    match xs with
    | [] => rfl
    | [x] => simp [argument?]
    | _ :: _ :: _ => rfl
  | node op xs => rw [sorted_node]; rfl
  | _ => rfl

theorem callOfSquare?_eq : e.callOfSquare? = (e.sides? .power).bind fun p =>
    match p.1 with
    | .call f [arg] => if p.2.number? = some (.ofInt 2) then some (f, arg) else none
    | _ => none := by
  unfold callOfSquare?
  split
  · rename_i f arg x
    simp [sides?, number?]
  · rename_i other
    cases found : e.sides? .power with
    | none => rfl
    | some p =>
      obtain ⟨base, exponent⟩ := p
      rw [Option.bind_some]
      dsimp only
      split
      · rename_i f arg
        split
        · rename_i two
          cases exponent <;> cases two
          exact absurd (eq_node_of_sides? found) (other f arg _)
        · rfl
      · rfl

theorem callOfSquare?_sorted :
    e.sorted.callOfSquare? = e.callOfSquare?.map fun p => (p.1, p.2.sorted) := by
  rw [callOfSquare?_eq, callOfSquare?_eq, sides?_sorted e .power rfl]
  cases e.sides? .power with
  | none => rfl
  | some p =>
    obtain ⟨base, exponent⟩ := p
    simp only [Option.map_some, Option.bind_some, number?_sorted]
    cases base with
    | call f xs =>
      rw [sorted_call]
      match xs with
      | [] => rfl
      | [x] => simp only [List.map_singleton]; split <;> rfl
      | _ :: _ :: _ => rfl
    | node op xs => rw [sorted_node]; rfl
    | _ => rfl

/-- Calls that reduce still do so with their operands in order. -/
theorem callProduct?_sorted {a b : Expr} (h : callProduct? a.sorted b.sorted = none) :
    callProduct? a b = none := by
  unfold callProduct?
  split
  · rename_i f u g v
    rw [sorted_call, sorted_call] at h
    split
    · rename_i same
      simpa [callProduct?, same] using h
    · rfl
  · rfl

/-! ## Signs and coefficients -/

/-- Only the first factor of a product may be a numeral. -/
def HasNumberFirst : Expr → Prop
  | .node .multiply xs => ∀ x ∈ xs.tail, x.isNumber = false
  | _ => True

end Expr

theorem factorOrder_number {x : Numeral} {e : Expr} (h : e.isNumber = false) :
    (Expr.factorOrder (.number x) e != .gt) = true := by
  have first : (Expr.number x).compare e = .lt := by
    cases e <;> first | rfl | cases h
  have place : compareOfLessAndEq (Expr.number x).factorPlace e.factorPlace ≠ .gt := by
    have none : (Expr.number x).factorPlace = 0 := rfl
    rw [none]
    cases e.factorPlace <;> simp [compareOfLessAndEq]
  rw [Expr.factorOrder, first]
  revert place
  cases compareOfLessAndEq (Expr.number x).factorPlace e.factorPlace <;> decide

namespace Operator

/-- A numeral comes before all factors that are none. -/
theorem arranged_number_cons {x : Numeral} {xs : List Expr} (h : ∀ y ∈ xs, y.isNumber = false) :
    Operator.multiply.arranged (.number x :: xs) = .number x :: Operator.multiply.arranged xs := by
  have perm : (Operator.multiply.arranged (.number x :: xs)).Perm
      (.number x :: Operator.multiply.arranged xs) :=
    (arranged_perm .multiply _).trans ((arranged_perm .multiply xs).symm.cons _)
  refine IsOrdered.eq_of_perm Expr.factorOrder_total (ordered_isOrdered Expr.factorOrder_total _)
    (List.pairwise_cons.mpr ⟨fun y member => factorOrder_number (h y ?_),
      ordered_isOrdered Expr.factorOrder_total xs⟩) perm
  exact (arranged_perm .multiply xs).mem_iff.mp member

/-- Numerals are all in front, so the other factors are ordered without them. -/
theorem filter_arranged {p : Expr → Bool} (op : Operator) (xs : List Expr) :
    (op.arranged xs).filter p = op.arranged (xs.filter p) := by
  have perm := (arranged_perm op xs).filter p
  unfold arranged at perm ⊢
  cases found : op.operandOrder? with
  | none => rfl
  | some order =>
    rw [found] at perm
    have total := Expr.operandOrder?_total found
    exact IsOrdered.eq_of_perm total ((ordered_isOrdered total xs).filter _)
      (ordered_isOrdered total _) (perm.trans (ordered_perm _).symm)

end Operator

namespace Expr

/-- The numeral in front and factors that are none, or no numeral at all. -/
theorem HasNumberFirst.cases {xs : List Expr} (h : (node .multiply xs).HasNumberFirst) :
    (∃ x rest, xs = .number x :: rest ∧ ∀ y ∈ rest, y.isNumber = false) ∨
      ∀ y ∈ xs, y.isNumber = false := by
  cases xs with
  | nil => exact .inr nofun
  | cons y rest =>
    cases y with
    | number x => exact .inl ⟨x, rest, rfl, h⟩
    | _ => exact .inr (List.forall_mem_cons.mpr ⟨rfl, h⟩)

theorem isNegative_multiply_of_no_number {xs : List Expr} (h : ∀ y ∈ xs, y.isNumber = false) :
    (node .multiply xs).isNegative = false := by
  cases xs with
  | nil => rfl
  | cons y rest =>
    cases y with
    | number x => exact absurd (h _ List.mem_cons_self) nofun
    | _ => rfl

theorem no_number_arranged {xs : List Expr} (h : ∀ y ∈ xs, y.isNumber = false) :
    ∀ y ∈ Operator.multiply.arranged (xs.map sorted), y.isNumber = false := by
  intro y member
  obtain ⟨x, inside, rfl⟩ := List.mem_map.mp ((arranged_perm .multiply _).mem_iff.mp member)
  rw [isNumber_sorted, h x inside]

theorem arranged_sorted_number_cons {x : Numeral} {rest : List Expr}
    (h : ∀ y ∈ rest, y.isNumber = false) :
    Operator.multiply.arranged ((number x :: rest).map sorted) =
      .number x :: Operator.multiply.arranged (rest.map sorted) :=
  Operator.arranged_number_cons (List.forall_mem_map.mpr fun y member => by
    rw [isNumber_sorted, h y member])

/-- The one numeral that a product may have leads it, also with the operands in order. -/
theorem isNegative_sorted {e : Expr} (h : e.AllParts HasNumberFirst) :
    e.sorted.isNegative = e.isNegative := by
  induction e with
  | number x => rfl
  | complex z => rfl
  | ident name => rfl
  | call f xs => rw [sorted_call]; rfl
  | node op xs ih =>
    rw [sorted_node]
    cases op with
    | multiply =>
      obtain ⟨x, rest, rfl, others⟩ | others := h.here.cases
      · rw [arranged_sorted_number_cons others]
        rfl
      · rw [isNegative_multiply_of_no_number others,
          isNegative_multiply_of_no_number (no_number_arranged others)]
    | divide =>
      cases xs with
      | nil => rfl
      | cons n rest =>
        show n.sorted.isNegative = n.isNegative
        exact ih n List.mem_cons_self (h.operands n List.mem_cons_self)
    | _ => simp [isNegative]

theorem filterMap_number?_eq_nil {xs : List Expr} (h : ∀ y ∈ xs, y.isNumber = false) :
    xs.filterMap number? = [] :=
  List.filterMap_eq_nil_iff.mpr fun y member => by
    have := h y member
    cases y <;> first | rfl | cases this

theorem numeralProduct_sorted {xs : List Expr} (h : (node .multiply xs).HasNumberFirst) :
    numeralProduct (Operator.multiply.arranged (xs.map sorted)) = numeralProduct xs := by
  obtain ⟨x, rest, rfl, others⟩ | others := h.cases
  · have front (ys : List Expr) : (number x :: ys).filterMap number? = x :: ys.filterMap number? :=
      rfl
    rw [arranged_sorted_number_cons others, numeralProduct, numeralProduct, front, front,
      filterMap_number?_eq_nil others, filterMap_number?_eq_nil (no_number_arranged others)]
  · rw [numeralProduct, numeralProduct, filterMap_number?_eq_nil others,
      filterMap_number?_eq_nil (no_number_arranged others)]

/-- The coefficient of a product and the product of its other factors, in order. -/
theorem asMultiple_multiply_sorted {xs : List Expr} (h : (node .multiply xs).HasNumberFirst) :
    (node .multiply xs).sorted.asMultiple =
      ((node .multiply xs).asMultiple.1, (node .multiply xs).asMultiple.2.sorted) := by
  have rest : (Operator.multiply.arranged (xs.map sorted)).filter (fun x => !x.isNumber) =
      Operator.multiply.arranged ((xs.filter fun x => !x.isNumber).map sorted) := by
    rw [Operator.filter_arranged, List.filter_map]
    simp only [Function.comp_def, isNumber_sorted]
  rw [sorted_node, asMultiple, asMultiple, rest, numeralProduct_sorted h, sorted_product]

/-- The rest of a term: no quotient, and no numeral among its factors unless it is one. -/
structure IsRest (r : Expr) : Prop where
  whole : r.sides? .divide = none
  symbolic : r.isOne = false → ∀ y ∈ r.factors, y.isNumber = false

theorem scaleWhole_of_whole {r : Expr} (h : r.sides? .divide = none) (c : Numeral) :
    scaleWhole c r =
      if c.isZero then zero
      else if c.isOne then r
      else if r.isOne then .number c
      else product (.number c :: r.factors) := by
  unfold scaleWhole
  split
  · simp [sides?] at h
  · rename_i other
    cases r with
    | node op xs => cases op <;> rfl
    | _ => rfl

theorem IsRest.sorted_scaleWhole {r : Expr} (h : r.IsRest) (c : Numeral) :
    (scaleWhole c r).sorted = scaleWhole c r.sorted := by
  have whole : r.sorted.sides? .divide = none := by rw [sides?_sorted r .divide rfl, h.whole]; rfl
  rw [scaleWhole_of_whole h.whole, scaleWhole_of_whole whole, isOne_sorted]
  split
  · rfl
  · split
    · rfl
    · split
      · rfl
      · rename_i notOne
        rw [sorted_product, arranged_sorted_number_cons (h.symbolic (by simpa using notOne)),
          factors_sorted]

theorem scale_of_whole {r : Expr} (h : r.sides? .divide = none) (c : Numeral) :
    scale c r =
      match c.fraction? with
      | some (num, den) => div (scaleWhole (.ofInt num) r) (ofInt den)
      | none => scaleWhole c r := by
  unfold scale
  cases c.fraction? with
  | none => rfl
  | some fraction =>
    dsimp only
    split
    · simp [sides?] at h
    · rfl

theorem IsRest.sorted_scale {r : Expr} (h : r.IsRest) (c : Numeral) :
    (scale c r).sorted = scale c r.sorted := by
  have whole : r.sorted.sides? .divide = none := by rw [sides?_sorted r .divide rfl, h.whole]; rfl
  rw [scale_of_whole h.whole, scale_of_whole whole]
  split
  · rw [← h.sorted_scaleWhole]
    rfl
  · exact h.sorted_scaleWhole c

/-- The bar of a quotient is drawn over a product that it stands in, and there are no bars within
the sides of a quotient. -/
def HasBarOutside : Expr → Prop
  | .node .multiply xs => ∀ x ∈ xs, x.sides? .divide = none
  | .node .divide [n, d] => n.sides? .divide = none ∧ d.sides? .divide = none
  | _ => True

theorem asMultiple_of_symbolic {e : Expr} (whole : e.sides? .divide = none)
    (product : e.isNode .multiply = false) (number : e.isNumber = false) :
    e.asMultiple = (.one, e) := by
  unfold asMultiple
  split
  · cases product
  · cases whole
  · cases number
  · rfl

theorem factors_of_not_product {e : Expr} (h : e.isNode .multiply = false) : e.factors = [e] := by
  unfold factors
  split
  · cases h
  · rfl

theorem isRest_asMultiple {e : Expr} (whole : e.sides? .divide = none) (bars : e.HasBarOutside)
    (flat : e.IsFlat) : e.asMultiple.2.IsRest := by
  cases product : e.isNode .multiply with
  | true =>
    obtain ⟨xs, rfl⟩ := eq_node_of_isNode product
    rw [asMultiple]
    show (Expr.product (xs.filter fun x => !x.isNumber)).IsRest
    have symbolic (y : Expr) (member : y ∈ xs.filter fun x => !x.isNumber) :
        y ∈ xs ∧ y.isNumber = false := by simpa using member
    generalize xs.filter (fun x => !x.isNumber) = rest at symbolic ⊢
    match rest, symbolic with
    | [], _ => exact ⟨rfl, fun one => Bool.noConfusion one⟩
    | [y], symbolic =>
      obtain ⟨member, notNumber⟩ := symbolic y List.mem_cons_self
      refine ⟨bars y member, fun _ => ?_⟩
      rw [Expr.product, factors_of_not_product ((flat rfl).2 y member)]
      exact fun z inside => List.mem_singleton.mp inside ▸ notNumber
    | _ :: _ :: _, symbolic =>
      exact ⟨sides?_of_ne (by decide) _, fun _ z member => (symbolic z member).2⟩
  | false =>
    cases number : e.isNumber with
    | true =>
      cases e <;> cases number
      exact ⟨rfl, fun one => Bool.noConfusion one⟩
    | false =>
      rw [asMultiple_of_symbolic whole product number]
      refine ⟨whole, fun _ => ?_⟩
      rw [factors_of_not_product product]
      exact fun z inside => List.mem_singleton.mp inside ▸ number

theorem asMultiple_sorted_of_whole {e : Expr} (whole : e.sides? .divide = none)
    (h : e.HasNumberFirst) : e.sorted.asMultiple = (e.asMultiple.1, e.asMultiple.2.sorted) := by
  cases product : e.isNode .multiply with
  | true =>
    obtain ⟨xs, rfl⟩ := eq_node_of_isNode product
    exact asMultiple_multiply_sorted h
  | false =>
    cases number : e.isNumber with
    | true =>
      cases e <;> cases number
      rfl
    | false =>
      rw [asMultiple_of_symbolic whole product number, asMultiple_of_symbolic]
      · rw [sides?_sorted e .divide rfl, whole]
        rfl
      · rw [isNode_sorted, product]
      · rw [isNumber_sorted, number]

/-- Ordering the operands keeps the coefficient of a term and orders the rest of it. -/
theorem asMultiple_sorted {e : Expr} (h : e.AllParts HasNumberFirst)
    (bars : e.AllParts HasBarOutside) (flat : e.AllParts IsFlat) :
    e.sorted.asMultiple = (e.asMultiple.1, e.asMultiple.2.sorted) := by
  cases found : e.sides? .divide with
  | none => exact asMultiple_sorted_of_whole found h.here
  | some p =>
    obtain ⟨n, d⟩ := p
    obtain rfl := eq_node_of_sides? found
    obtain ⟨wholeAbove, wholeBelow⟩ := bars.here
    have above := asMultiple_sorted_of_whole wholeAbove (h.operands n (by simp)).here
    have below := asMultiple_sorted_of_whole wholeBelow (h.operands d (by simp)).here
    have restAbove := isRest_asMultiple wholeAbove (bars.operands n (by simp)).here
      (flat.operands n (by simp)).here
    have restBelow := isRest_asMultiple wholeBelow (bars.operands d (by simp)).here
      (flat.operands d (by simp)).here
    show quotientMultiple n.sorted.asMultiple d.sorted.asMultiple =
      ((quotientMultiple n.asMultiple d.asMultiple).1,
        (quotientMultiple n.asMultiple d.asMultiple).2.sorted)
    rw [above, below, quotientMultiple, quotientMultiple]
    dsimp only
    split
    · rw [← restAbove.sorted_scale, ← restBelow.sorted_scale]
      rfl
    · rw [isOne_sorted]
      split <;> rfl

end Expr

end SymbolicAlgebra
