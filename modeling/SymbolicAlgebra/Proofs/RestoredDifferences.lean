import SymbolicAlgebra.Proofs.IrreducibleTrees
import SymbolicAlgebra.Proofs.Signs
import SymbolicAlgebra.Proofs.SumForm

/-! Differences that are restored in an irreducible tree and written as sums again: the same tree
but for the order and the nesting of its sums. -/
namespace SymbolicAlgebra

namespace Expr

/-! ## Passes from the operands up -/

/-- The tree with its differences as sums. -/
def summed (e : Expr) : Expr := (toSums e).expr

/-- The tree with nested associative nodes spliced. -/
def flattened (e : Expr) : Expr := (flatten e).expr

/-- The tree with negative addends as differences. -/
def restored (e : Expr) : Expr := (toDifferences e).expr

theorem summed_call (f : NamedFunction) (xs : List Expr) :
    (call f xs).summed = .call f (xs.map summed) := by
  rw [summed, toSums, everywhere_call]
  rfl

theorem summed_node (op : Operator) (xs : List Expr) :
    (node op xs).summed = (differenceToSum (.node op (xs.map summed))).expr :=
  everywhere_node _ op xs

theorem summed_node_of_ne {op : Operator} (h : op ≠ .subtract) (xs : List Expr) :
    (node op xs).summed = .node op (xs.map summed) := by
  rw [summed_node]
  cases op <;> first | rfl | exact absurd rfl h

theorem summed_sub (a b : Expr) :
    (sub a b).summed = .node .add (a.summed.addends ++ [b.summed.negate]) :=
  summed_node .subtract [a, b]

theorem flattened_call (f : NamedFunction) (xs : List Expr) :
    (call f xs).flattened = .call f (xs.map flattened) := by
  rw [flattened, flatten, everywhere_call]
  rfl

theorem flattened_node (op : Operator) (xs : List Expr) :
    (node op xs).flattened =
      if op.isAssociative then collapsed op (splice op (xs.map flattened))
      else .node op (xs.map flattened) := by
  rw [flattened, flatten, everywhere_node, flattenNode_expr]
  rfl

theorem flattened_add (xs : List Expr) :
    (node .add xs).flattened = sum (xs.flatMap fun x => x.flattened.addends) := by
  rw [flattened_node, if_pos (by rfl), splice_eq_flatMap, List.flatMap_map]
  simp only [spliced_add]
  generalize (xs.flatMap fun x => x.flattened.addends) = ys
  match ys with
  | [] => rfl
  | [x] => rfl
  | _ :: _ :: _ => rfl

theorem restored_call (f : NamedFunction) (xs : List Expr) :
    (call f xs).restored = .call f (xs.map restored) := by
  rw [restored, toDifferences, everywhere_call]
  rfl

theorem restored_add (xs : List Expr) :
    (node .add xs).restored = (sumToDifference (.node .add (xs.map restored))).expr :=
  everywhere_node _ .add xs

theorem restored_node_of_ne {op : Operator} (h : op ≠ .add) (xs : List Expr) :
    (node op xs).restored = .node op (xs.map restored) := by
  rw [restored, toDifferences, everywhere_node]
  cases op <;> first | rfl | exact absurd rfl h

/-! ## No difference is left -/

theorem differenceToSum_eq_same {e : Expr} (h : e.sides? .subtract = none) :
    differenceToSum e = .same e := by
  unfold differenceToSum
  split
  · simp [sides?] at h
  · rfl

theorem allParts_addends {P : Expr → Prop} {e : Expr} (h : e.AllParts P) :
    ∀ x ∈ e.addends, x.AllParts P := by
  unfold addends
  split
  · exact h.operands
  · exact fun x member => List.mem_singleton.mp member ▸ h

theorem summed_hasNoDifference (e : Expr) :
    e.summed.AllParts fun part => part.sides? .subtract = none := by
  induction e with
  | number x => rfl
  | complex z => rfl
  | ident name => rfl
  | call f xs ih =>
    rw [summed_call]
    exact allParts_call.mpr ⟨rfl, List.forall_mem_map.mpr ih⟩
  | node op xs ih =>
    have each : ∀ y ∈ xs.map summed, y.AllParts fun part => part.sides? .subtract = none :=
      List.forall_mem_map.mpr ih
    rw [summed_node]
    generalize xs.map summed = ys at each
    unfold differenceToSum
    split
    · rename_i a b same
      cases same
      refine allParts_node.mpr ⟨sides?_of_ne (by decide) _, fun y member => ?_⟩
      obtain inside | last := List.mem_append.mp member
      · exact allParts_addends (each a (by simp)) _ inside
      · rw [List.mem_singleton.mp last]
        exact (each b (by simp)).negate (fun _ => rfl) (fun _ => rfl)
          (fun _ => sides?_of_ne (by decide) _) (fun _ _ => sides?_of_ne (by decide) _)
    · rename_i other
      exact allParts_node.mpr ⟨sides?_eq_none other, each⟩

theorem toSums_summed (e : Expr) : toSums e.summed = .same e.summed :=
  everywhere_eq_same (e.summed_hasNoDifference.mono fun _ => differenceToSum_eq_same)

/-! ## The kind of an expression -/

/-- A sum or a difference. -/
def isSumOrDifference (e : Expr) : Bool := e.isNode .add || e.isNode .subtract

/-- The run of addends is a sum already, or becomes one. -/
theorem subtractFrom_isSumOrDifference {run ds : List Expr}
    (h : (sum run).isSumOrDifference = true ∨ run ≠ [] ∧ ds ≠ []) :
    (subtractFrom run ds).isSumOrDifference = true := by
  induction ds generalizing run with
  | nil =>
    obtain already | ⟨-, none⟩ := h
    · exact already
    · exact absurd rfl none
  | cons d ds ih =>
    have some : run ≠ [] := by
      obtain already | ⟨some, -⟩ := h
      · rintro rfl
        cases already
      · exact some
    rw [subtractFrom]
    split
    · exact ih (.inl rfl)
    · refine ih (.inl ?_)
      rcases run with _ | ⟨r, _ | ⟨s, rs⟩⟩
      · exact absurd rfl some
      · rfl
      · rfl

theorem sumToDifference_isSumOrDifference (xs : List Expr) :
    (sumToDifference (node .add xs)).expr.isSumOrDifference = true := by
  unfold sumToDifference
  split
  · split
    · split
      · rename_i some
        refine subtractFrom_isSumOrDifference (.inr ⟨List.cons_ne_nil _ _, ?_⟩)
        rintro rfl
        cases some
      · rfl
    · rfl
  · rfl

theorem restored_add_isSumOrDifference (xs : List Expr) :
    (node .add xs).restored.isSumOrDifference = true := by
  rw [restored_add]
  exact sumToDifference_isSumOrDifference _

theorem takesSign_of_isSumOrDifference {e : Expr} (h : e.isSumOrDifference = true) :
    e.takesSign = false := by
  cases e with
  | node op xs => cases op <;> first | rfl | cases h
  | _ => cases h

theorem isNegative_of_isSumOrDifference {e : Expr} (h : e.isSumOrDifference = true) :
    e.isNegative = false := by
  cases e with
  | node op xs => cases op <;> first | rfl | cases h
  | _ => cases h

/-- Rewriting the operands of a node does not touch whether it takes a sign. -/
theorem takesSign_node_map (op : Operator) (g : Expr → Expr) (xs : List Expr) :
    (node op (xs.map g)).takesSign = (node op xs).takesSign := by
  cases op with
  | divide =>
    match xs with
    | [] | [_] | [_, _] | _ :: _ :: _ :: _ => rfl
  | _ => rfl

theorem takesSign_restored (e : Expr) : e.restored.takesSign = e.takesSign := by
  cases e with
  | node op xs =>
    by_cases sum : op = .add
    · subst sum
      exact takesSign_of_isSumOrDifference (restored_add_isSumOrDifference xs)
    · rw [restored_node_of_ne sum, takesSign_node_map]
  | call f xs => rw [restored_call]; rfl
  | _ => rfl

theorem takesSign_summed (e : Expr) : e.summed.takesSign = e.takesSign := by
  cases e with
  | node op xs =>
    by_cases difference : op = .subtract
    · subst difference
      rw [summed_node]
      match xs with
      | [] | [_] | [_, _] | _ :: _ :: _ :: _ => rfl
    · rw [summed_node_of_ne difference, takesSign_node_map]
  | call f xs => rw [summed_call]; rfl
  | _ => rfl

theorem isNumber_of_isNode {op : Operator} {e : Expr} (h : e.isNode op = true) :
    e.isNumber = false := by
  obtain ⟨xs, rfl⟩ := eq_node_of_isNode h
  rfl

theorem isNumber_restored (e : Expr) : e.restored.isNumber = e.isNumber := by
  cases e with
  | node op xs =>
    by_cases sum : op = .add
    · subst sum
      have kind := restored_add_isSumOrDifference xs
      rw [isSumOrDifference, Bool.or_eq_true] at kind
      exact kind.elim isNumber_of_isNode isNumber_of_isNode
    · rw [restored_node_of_ne sum]
      rfl
  | call f xs => rw [restored_call]; rfl
  | _ => rfl

theorem isNumber_summed (e : Expr) : e.summed.isNumber = e.isNumber := by
  cases e with
  | node op xs =>
    rw [summed_node]
    unfold differenceToSum
    split <;> rfl
  | call f xs => rw [summed_call]; rfl
  | _ => rfl

theorem eq_number_of_restored {e : Expr} {x : Numeral} (h : e.restored = .number x) :
    e = .number x := by
  have number : e.isNumber = true := by rw [← isNumber_restored, h]; rfl
  cases e <;> first | exact h | cases number

/-! ## A sign taken off and put back -/

theorem negateFactors_of_not_number {xs : List Expr} (h : ∀ x ∈ xs, x.isNumber = false) :
    negateFactors xs = ofInt (-1) :: xs := by
  unfold negateFactors
  split
  · exact absurd (h _ List.mem_cons_self) nofun
  · rfl

theorem Irreducible.few_constants {simplify : Expr → Expr} {xs : List Expr}
    (h : (node .multiply xs).Irreducible simplify) (complex : xs.any isComplex = true) :
    ¬1 < (xs.filter isNumeralFactor).length := by
  have unchanged : (collectProduct xs).changed = false :=
    (h.idle collectNode (by simp [roundRules])).here.1
  rw [collectProduct, if_pos complex] at unchanged
  simpa using (collectFactors_unchanged unchanged).1

/-- A factor beside a numeral in an irreducible product takes no sign. -/
theorem Irreducible.takesSign_factor {simplify : Expr → Expr} {x : Numeral} {rest : List Expr}
    (h : (node .multiply (.number x :: rest)).Irreducible simplify) {r : Expr} (member : r ∈ rest) :
    r.takesSign = false := by
  have number : r.isNumber = false := h.hasNumberFirst r member
  have product : r.isNode .multiply = false := (h.flat.here rfl).2 r (List.mem_cons_of_mem _ member)
  have quotient : r.sides? .divide = none := h.bars.here r (List.mem_cons_of_mem _ member)
  have complex : r.isComplex = false := by
    rw [← Bool.not_eq_true]
    intro complex
    have constant : r ∈ rest.filter isNumeralFactor :=
      List.mem_filter.mpr ⟨member, by simp [isNumeralFactor, complex]⟩
    refine h.few_constants (List.any_eq_true.mpr ⟨r, List.mem_cons_of_mem _ member, complex⟩) ?_
    rw [List.filter_cons_of_pos rfl, List.length_cons]
    have := List.length_pos_of_mem constant
    omega
  unfold takesSign
  split
  · cases number
  · cases complex
  · cases product
  · simp [sides?] at quotient
  · rfl

theorem Irreducible.signs {simplify : Expr → Expr} {s : Expr} (h : s.Irreducible simplify) :
    s.AllParts HasSignInFront := by
  refine (AllParts.parts h).mono fun part irreducible => ?_
  unfold HasSignInFront
  split
  · rintro rfl number
    rename_i x rest
    cases x with
    | number x =>
      refine ⟨?_, fun r member => Irreducible.takesSign_factor irreducible member⟩
      rintro rfl
      exact absurd (Irreducible.flat irreducible |>.here rfl).1 (by simp)
    | _ => cases number
  · trivial

theorem unsigned_of_whole {e : Expr} (whole : e.sides? .divide = none)
    (negative : e.isNegative = true) : e.unsigned = e.negate := by
  unfold unsigned
  split
  · simp [sides?] at whole
  · exact if_pos negative

/-- The opposite of a product without its sign is the product. -/
theorem negate_summed_unsigned_multiply {x : Numeral} {rest : List Expr}
    (h : (node .multiply (.number x :: rest)).HasSignInFront)
    (noFloat : (number x).HasNoFloat) (negative : x.isNegative = true) :
    (node .multiply (.number x :: rest.map restored)).unsigned.summed.negate =
      .node .multiply (.number x :: rest.map fun r => r.restored.summed) := by
  obtain ⟨some, whole⟩ := h rfl rfl
  have symbolic (r : Expr) (member : r ∈ rest) : r.isNumber = false :=
    isNumber_of_not_takesSign (whole r member)
  have unsigned : (node .multiply (.number x :: rest.map restored)).unsigned =
      .product (if x.neg.isOne then rest.map restored else .number x.neg :: rest.map restored) := by
    exact unsigned_of_whole (sides?_of_ne (by decide) _) negative
  rw [unsigned]
  by_cases one : x.neg.isOne = true
  · rw [if_pos one]
    obtain rfl := eq_of_isOne_neg noFloat one
    match rest, some, symbolic with
    | [r], _, _ =>
      have alone : r.restored.summed.takesSign = false := by
        rw [takesSign_summed, takesSign_restored, whole r List.mem_cons_self]
      exact negate_of_not_takesSign alone
    | r :: s :: rest, _, symbolic =>
      have others : ∀ y ∈ ((r :: s :: rest).map restored).map summed, y.isNumber = false := by
        rw [List.map_map]
        refine List.forall_mem_map.mpr fun y member => ?_
        rw [Function.comp, isNumber_summed, isNumber_restored, symbolic y member]
      rw [product_eq_node (by simp), summed_node_of_ne (by decide), negate,
        negateFactors_of_not_number others, product_eq_node (by simp), List.map_map]
      rfl
  · rw [if_neg one]
    have long : 2 ≤ (number x.neg :: rest.map restored).length := by
      rw [List.length_cons, List.length_map]
      have := List.length_pos_of_ne_nil some
      omega
    rw [product_eq_node long, summed_node_of_ne (by decide), List.map_cons, List.map_map]
    show product (if x.neg.neg.isOne then _ else number x.neg.neg :: _) = _
    rw [neg_neg_of_hasNoFloat noFloat, isOne_of_isNegative noFloat negative,
      if_neg (by decide), product_eq_node]
    · rfl
    · rw [List.length_cons, List.length_map] at long ⊢
      exact long

/-- A sign in front goes again as the factor that it is. -/
theorem negate_summed_negate {e : Expr} (whole : e.takesSign = false) :
    e.negate.summed.negate = e.summed := by
  rw [negate_of_not_takesSign whole]
  show Expr.negate (node .multiply [ofInt (-1), e]).summed = _
  rw [summed_node_of_ne (by decide)]
  rfl

/-- What is subtracted is the opposite of a negative addend; as an addend it gets its sign back. -/
theorem negate_summed_unsigned {e : Expr} (h : e.AllParts HasSignInFront)
    (noFloats : e.AllParts HasNoFloat) (negative : e.restored.isNegative = true) :
    e.restored.unsigned.summed.negate = e.restored.summed := by
  induction e with
  | number x =>
    replace negative : x.isNegative = true := negative
    have unsigned : (number x).unsigned = .number x.neg := unsigned_of_whole rfl negative
    show (number x).unsigned.summed.negate = _
    rw [unsigned]
    exact congrArg Expr.number (neg_neg_of_hasNoFloat noFloats)
  | complex z => cases negative
  | ident name => cases negative
  | call f xs =>
    rw [restored_call] at negative
    cases negative
  | node op xs ih =>
    cases op with
    | add =>
      rw [isNegative_of_isSumOrDifference (restored_add_isSumOrDifference xs)] at negative
      cases negative
    | multiply =>
      rw [restored_node_of_ne (by decide)] at negative ⊢
      match xs with
      | [] => cases negative
      | x :: rest =>
        rw [List.map_cons] at negative ⊢
        unfold isNegative at negative
        split at negative
        · rename_i same
          cases same
        · rename_i x' rest' same
          rw [node.injEq, List.cons.injEq] at same
          obtain rfl := eq_number_of_restored same.2.1
          have noFloat := (noFloats.operands _ List.mem_cons_self).here
          refine (negate_summed_unsigned_multiply h.here noFloat negative).trans ?_
          rw [summed_node_of_ne (by decide), List.map_cons, List.map_map]
          rfl
        · rename_i same
          cases same
        · cases negative
    | divide =>
      rw [restored_node_of_ne (by decide)] at negative ⊢
      match xs with
      | [] => cases negative
      | [n, d] =>
        replace negative : n.restored.isNegative = true := negative
        have above := ih n (by simp) (h.operands n (by simp)) (noFloats.operands n (by simp))
          negative
        have unsigned : (node .divide [n.restored, d.restored]).unsigned =
            .node .divide [n.restored.unsigned, d.restored] := if_pos negative
        rw [List.map_cons, List.map_singleton, unsigned, summed_node_of_ne (by decide),
          summed_node_of_ne (by decide)]
        show node .divide [n.restored.unsigned.summed.negate, _] = _
        rw [above]
        rfl
      | [n] =>
        rw [unsigned_of_whole rfl negative]
        exact negate_summed_negate rfl
      | n :: d :: e :: rest =>
        rw [unsigned_of_whole rfl negative]
        exact negate_summed_negate rfl
    | _ =>
      rw [restored_node_of_ne (by decide)] at negative
      cases negative

/-! ## Chains of differences -/

/-- The addends of the flat sum that an expression with differences stands for. -/
def terms (e : Expr) : List Expr := e.summed.flattened.addends

theorem addends_ne_nil_of_flat {e : Expr} (h : e.IsFlat) : e.addends ≠ [] := by
  unfold addends
  split
  · rename_i xs
    rintro rfl
    exact absurd (h rfl).1 (by simp)
  · exact List.cons_ne_nil _ _

theorem isNode_of_mem_addends {e x : Expr} (h : e.IsFlat) (member : x ∈ e.addends) :
    x.isNode .add = false := by
  unfold addends at member
  split at member
  · exact (h rfl).2 x member
  · rename_i other
    rw [List.mem_singleton.mp member]
    exact isNode_eq_false other

theorem addends_of_not_sum {e : Expr} (h : e.isNode .add = false) : e.addends = [e] := by
  unfold addends
  split
  · cases h
  · rfl

theorem addends_sum {xs : List Expr} (some : xs ≠ []) (flat : ∀ x ∈ xs, x.isNode .add = false) :
    (sum xs).addends = xs := by
  match xs, some with
  | [x], _ => exact addends_of_not_sum (flat x List.mem_cons_self)
  | _ :: _ :: _, _ => rfl

theorem sum_addends_of_flat {e : Expr} (h : e.IsFlat) : sum e.addends = e := by
  cases isSum : e.isNode .add with
  | true =>
    obtain ⟨xs, rfl⟩ := eq_node_of_isNode isSum
    exact sum_eq_node (h rfl).1
  | false => rw [addends_of_not_sum isSum]; rfl

theorem addends_flattened_add {xs : List Expr} (some : xs ≠ []) :
    (node .add xs).flattened.addends = xs.flatMap fun x => x.flattened.addends := by
  have flat (x : Expr) : x.flattened.IsFlat := (flatten_flat x).here
  rw [flattened_add]
  refine addends_sum ?_ fun y member => ?_
  · obtain ⟨x, rest, rfl⟩ := List.exists_cons_of_ne_nil some
    rw [List.flatMap_cons]
    exact List.append_ne_nil_of_left_ne_nil (addends_ne_nil_of_flat (flat x)) _
  · obtain ⟨x, -, inside⟩ := List.mem_flatMap.mp member
    exact isNode_of_mem_addends (flat x) inside

theorem addends_flattened {e : Expr} (some : e.addends ≠ []) :
    e.flattened.addends = e.addends.flatMap fun x => x.flattened.addends := by
  cases isSum : e.isNode .add with
  | true =>
    obtain ⟨xs, rfl⟩ := eq_node_of_isNode isSum
    exact addends_flattened_add some
  | false => rw [addends_of_not_sum isSum, List.flatMap_singleton]

theorem terms_sub {a b : Expr} (some : a.summed.addends ≠ []) :
    (sub a b).terms = a.terms ++ b.summed.negate.flattened.addends := by
  rw [terms, summed_sub, addends_flattened_add (by simp), List.flatMap_append,
    List.flatMap_singleton, ← addends_flattened some, terms]

theorem terms_sum {run : List Expr} (some : run ≠ []) : (sum run).terms = run.flatMap terms := by
  match run, some with
  | [x], _ => rw [List.flatMap_singleton]; rfl
  | x :: y :: rest, _ =>
    rw [terms, sum_eq_node (by simp), summed_node_of_ne (by decide),
      addends_flattened_add (by simp), List.flatMap_map]
    rfl

theorem addends_summed_sum {run : List Expr} (some : run ≠ [])
    (each : ∀ x ∈ run, x.summed.addends ≠ []) : (sum run).summed.addends ≠ [] := by
  match run, some with
  | [x], _ => exact each x List.mem_cons_self
  | x :: y :: rest, _ =>
    rw [sum_eq_node (by simp), summed_node_of_ne (by decide)]
    exact List.cons_ne_nil _ _

/-- The flat sum of a chain of differences has the addends of the run that it starts from and then
those that were added or subtracted, with their signs. -/
theorem terms_subtractFrom {run ds : List Expr} (some : run ≠ [])
    (each : ∀ x ∈ run, x.summed.addends ≠ []) (others : ∀ d ∈ ds, d.summed.addends ≠ [])
    (signs : ∀ d ∈ ds, d.isNegative = true → d.unsigned.summed.negate = d.summed) :
    (subtractFrom run ds).terms = run.flatMap terms ++ ds.flatMap terms := by
  -- What is subtracted closes the run so far, which starts the next one as its only addend.
  induction ds generalizing run with
  | nil => rw [subtractFrom, terms_sum some, List.flatMap_nil, List.append_nil]
  | cons d ds ih =>
    obtain ⟨sign, signs⟩ := List.forall_mem_cons.mp signs
    obtain ⟨other, others⟩ := List.forall_mem_cons.mp others
    rw [subtractFrom, List.flatMap_cons, ← List.append_assoc]
    split
    · rename_i negative
      rw [ih (List.cons_ne_nil _ _) _ others signs, List.flatMap_singleton,
        terms_sub (addends_summed_sum some each), terms_sum some, sign negative, terms]
      rintro x member
      rw [List.mem_singleton.mp member, summed_sub]
      simp [addends]
    · rw [ih (by simp) _ others signs, List.flatMap_append, List.flatMap_singleton]
      intro x member
      obtain before | last := List.mem_append.mp member
      · exact each x before
      · exact List.mem_singleton.mp last ▸ other

/-- Restoring differences in a sum moves addends, and the flat sum has them all. -/
theorem terms_sumToDifference {ds : List Expr} (two : 2 ≤ ds.length)
    (others : ∀ d ∈ ds, d.summed.addends ≠ [])
    (signs : ∀ d ∈ ds, d.isNegative = true → d.unsigned.summed.negate = d.summed) :
    (sumToDifference (node .add ds)).expr.terms.Perm (ds.flatMap terms) := by
  match ds, two with
  | x :: y :: rest, _ =>
    have perm := bringPositiveForward_perm (x :: y :: rest)
    rw [sumToDifference]
    generalize bringPositiveForward (x :: y :: rest) = moved at perm ⊢
    obtain ⟨ordered, changed⟩ := moved
    dsimp only at perm ⊢
    have terms_eq (e : Expr) (same : e.terms = ordered.flatMap terms) :
        e.terms.Perm ((x :: y :: rest).flatMap terms) := by
      rw [same]
      exact perm.flatMap_right _
    match ordered, perm with
    | [], perm => exact absurd perm.length_eq (by simp)
    | first :: later, perm =>
      dsimp only
      split
      · have member (d : Expr) (h : d ∈ later) := perm.mem_iff.mp (List.mem_cons_of_mem first h)
        have chain : (subtractFrom [first] later).terms =
            [first].flatMap terms ++ later.flatMap terms :=
          terms_subtractFrom (List.cons_ne_nil _ _)
            (fun d h => others d (perm.mem_iff.mp (List.mem_singleton.mp h ▸ List.mem_cons_self)))
            (fun d h => others d (member d h)) fun d h => signs d (member d h)
        refine terms_eq _ (chain.trans ?_)
        rw [List.flatMap_singleton, List.flatMap_cons]
      · refine terms_eq _ ?_
        have long : 2 ≤ (first :: later).length := by rw [perm.length_eq]; simp
        rw [← sum_eq_node long, terms_sum (List.cons_ne_nil _ _)]

/-! ## There and back -/

/-- The flat sums that a tree stands for once its differences are restored. -/
def resummed (e : Expr) : Expr := e.restored.summed.flattened

theorem addends_summed_restored {e : Expr} (h : e.isNode .add = false) :
    e.restored.summed.addends ≠ [] := by
  cases e with
  | node op xs =>
    have other : (node op ((xs.map restored).map summed)).isNode .add = false := h
    rw [restored_node_of_ne (by rintro rfl; cases h), summed_node]
    unfold differenceToSum
    split
    · exact List.append_ne_nil_of_right_ne_nil _ (List.cons_ne_nil _ _)
    · exact addends_of_not_sum other ▸ List.cons_ne_nil _ _
  | call f xs => rw [restored_call, summed_call]; exact List.cons_ne_nil _ _
  | _ => exact List.cons_ne_nil _ _

theorem sides?_node_map (op o : Operator) (g : Expr → Expr) (xs : List Expr) :
    (node op (xs.map g)).sides? o = ((node op xs).sides? o).map fun p => (g p.1, g p.2) := by
  match xs with
  | [] | [_] | _ :: _ :: _ :: _ => rfl
  | [a, b] =>
    simp only [List.map_cons, List.map_nil, sides?]
    split <;> rfl

section Return

variable {simplify : Expr → Expr}

theorem Irreducible.whole {s : Expr} (h : s.Irreducible simplify) : s.sides? .subtract = none := by
  have unchanged := (h.idle differenceToSum (by simp [roundRules])).here.1
  unfold differenceToSum at unchanged
  split at unchanged
  · cases unchanged
  · rename_i other
    exact sides?_eq_none other

theorem resummed_node {op : Operator} {xs : List Expr} (h : (node op xs).Irreducible simplify)
    (other : op ≠ .add) (each : ∀ x ∈ xs, x.resummed.sorted = x) :
    (node op xs).resummed = .node op (xs.map resummed) := by
  have whole : (node op ((xs.map restored).map summed)).sides? .subtract = none := by
    rw [sides?_node_map, sides?_node_map, h.whole]
    rfl
  have operands : ((xs.map restored).map summed).map flattened = xs.map resummed := by
    rw [List.map_map, List.map_map]
    rfl
  rw [resummed, restored_node_of_ne other, summed_node, differenceToSum_eq_same whole]
  show (node op _).flattened = _
  rw [flattened_node, operands]
  split
  · rename_i associative
    obtain ⟨long, others⟩ := h.flat.here associative
    rw [splice_of_flat, collapsed_of_length (by rwa [List.length_map])]
    refine List.forall_mem_map.mpr fun x member => ?_
    rw [← isNode_sorted, each x member, others x member]
  · rfl

/-- The sum of an irreducible tree comes back with its addends in some order. -/
theorem resummed_add {xs : List Expr} (h : (node .add xs).Irreducible simplify)
    (noFloats : (node .add xs).AllParts HasNoFloat) (each : ∀ x ∈ xs, x.resummed.sorted = x) :
    ∃ zs, zs.Perm (xs.map resummed) ∧ (node .add xs).resummed = .node .add zs := by
  obtain ⟨long, others⟩ := h.flat.here rfl
  have two : 2 ≤ (xs.map restored).length := by rwa [List.length_map]
  have perm := terms_sumToDifference two
    (List.forall_mem_map.mpr fun x member => addends_summed_restored (others x member))
    (List.forall_mem_map.mpr fun x member => negate_summed_unsigned (h.operands x member).signs
      (noFloats.operands x member))
  have alone (x : Expr) (member : x ∈ xs) : x.restored.terms = [x.resummed] := by
    refine addends_of_not_sum ?_
    show x.resummed.isNode .add = false
    rw [← isNode_sorted, each x member, others x member]
  have addends : (xs.map restored).flatMap terms = xs.map resummed := by
    rw [List.flatMap_map, List.flatMap_congr alone, List.map_eq_flatMap]
  rw [addends] at perm
  have many : 2 ≤ (sumToDifference (node .add (xs.map restored))).expr.terms.length := by
    rwa [perm.length_eq, List.length_map]
  refine ⟨_, perm, ?_⟩
  rw [resummed, restored_add, ← sum_eq_node many]
  exact (sum_addends_of_flat (flatten_flat _).here).symm

/-- Restoring the differences of an irreducible tree loses no more than the order of its sums. -/
theorem sorted_resummed {s : Expr} (h : s.Irreducible simplify) (noFloats : s.AllParts HasNoFloat) :
    s.resummed.sorted = s ∧ s.resummed.AllParts HasNumberFirst := by
  induction s with
  | number x => exact ⟨rfl, trivial⟩
  | complex z => exact ⟨rfl, trivial⟩
  | ident name => exact ⟨rfl, trivial⟩
  | call f xs ih =>
    have each (x : Expr) (member : x ∈ xs) :=
      ih x member (h.args x member) ((allParts_call.mp noFloats).2 x member)
    have same : (call f xs).resummed = .call f (xs.map resummed) := by
      rw [resummed, restored_call, summed_call, flattened_call, List.map_map, List.map_map]
      rfl
    rw [same, sorted_call, List.map_map]
    refine ⟨congrArg _ ((List.map_congr_left fun x member => (each x member).1).trans ?_), ?_⟩
    · exact List.map_id _
    · exact allParts_call.mpr ⟨trivial, List.forall_mem_map.mpr fun x member => (each x member).2⟩
  | node op xs ih =>
    have each (x : Expr) (member : x ∈ xs) :=
      ih x member (h.operands x member) (noFloats.operands x member)
    have back : (xs.map resummed).map sorted = xs := by
      rw [List.map_map]
      exact (List.map_congr_left fun x member => (each x member).1).trans (List.map_id _)
    have ordered : (node op (xs.map resummed)).sorted = node op xs := by
      have same := h.sorted_eq
      have operands : xs.map sorted = xs := map_sorted_eq_self fun x member =>
        (h.operands x member).sorted_eq
      rw [sorted_node, operands] at same
      rw [sorted_node, back, same]
    have numbers : ∀ y ∈ xs.map resummed, y.AllParts HasNumberFirst :=
      List.forall_mem_map.mpr fun x member => (each x member).2
    by_cases isSum : op = .add
    · subst isSum
      obtain ⟨zs, perm, same⟩ := resummed_add h noFloats fun x member => (each x member).1
      rw [same, sorted_of_perm rfl perm]
      refine ⟨ordered, allParts_node.mpr ⟨trivial, fun y member => ?_⟩⟩
      exact numbers y (perm.mem_iff.mp member)
    · rw [resummed_node h isSum fun x member => (each x member).1]
      refine ⟨ordered, allParts_node.mpr ⟨?_, numbers⟩⟩
      cases op with
      | multiply =>
        intro y member
        rw [← List.map_tail] at member
        obtain ⟨x, inside, rfl⟩ := List.mem_map.mp member
        rw [← isNumber_sorted, (each x (List.mem_of_mem_tail inside)).1, h.hasNumberFirst x inside]
      | _ => trivial

end Return

end Expr

end SymbolicAlgebra
