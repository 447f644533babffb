import SymbolicAlgebra.Proofs.ExposedPasses

/-! An exposed division by zero through the gathering of like terms and factors. It is like no term
that has a value, so that its group has no other member and is kept as it was written. -/
namespace SymbolicAlgebra

/-! ## Products of numerals -/

theorem numeralProduct_of_numerals {xs : List Expr} (h : ∀ x ∈ xs, x.IsNonzeroNumeral) :
    ∃ r : Rat, r ≠ 0 ∧ Expr.numeralProduct xs = .exact r := by
  have fold (acc : Rat) (nonzero : acc ≠ 0) :
      ∃ r : Rat, r ≠ 0 ∧
        (xs.filterMap Expr.number?).foldl Numeral.mul (.exact acc) = .exact r := by
    induction xs generalizing acc with
    | nil => exact ⟨acc, nonzero, rfl⟩
    | cons x xs ih =>
      obtain ⟨⟨s, here, rfl⟩, rest⟩ := List.forall_mem_cons.mp h
      exact ih rest (acc * s) (mul_ne_zero nonzero here)
  exact fold 1 one_ne_zero

theorem filter_isNumber_of_numerals {xs : List Expr} (h : ∀ x ∈ xs, x.IsNonzeroNumeral) :
    xs.filter Expr.isNumber = xs ∧ (xs.filter fun x => !x.isNumber) = [] := by
  have number : ∀ x ∈ xs, x.isNumber = true := fun x member => by
    obtain ⟨r, -, rfl⟩ := h x member
    rfl
  exact ⟨List.filter_eq_self.mpr number,
    List.filter_eq_nil_iff.mpr fun x member => by simp [number x member]⟩

theorem numeralProduct_filter (xs : List Expr) :
    Expr.numeralProduct (xs.filter Expr.isNumber) = Expr.numeralProduct xs := by
  have same : (xs.filter Expr.isNumber).filterMap Expr.number? = xs.filterMap Expr.number? := by
    rw [List.filterMap_filter]
    exact List.filterMap_congr fun x _ => by cases x <;> rfl
  rw [Expr.numeralProduct, same, Expr.numeralProduct]

theorem foldl_mul_nan (values : List Numeral) : values.foldl Numeral.mul .nan = .nan := by
  induction values with
  | nil => rfl
  | cons x values ih => exact ih

theorem foldl_mul_of_mem {values : List Numeral} (acc : Numeral) (member : Numeral.nan ∈ values) :
    values.foldl Numeral.mul acc = .nan := by
  induction values generalizing acc with
  | nil => cases member
  | cons x values ih =>
    rcases List.mem_cons.mp member with rfl | later
    · have absorbed : acc.mul .nan = .nan := by cases acc <;> rfl
      rw [List.foldl_cons, absorbed, foldl_mul_nan]
    · exact ih _ later

/-- A product of numerals is undefined if one of them is. -/
theorem collectProduct_of_nan {xs : List Expr} (real : xs.any Expr.isComplex = false)
    (member : .nan ∈ xs) : collectProduct xs = .new .nan := by
  have undefined : Expr.numeralProduct (xs.filter Expr.isNumber) = .nan :=
    foldl_mul_of_mem _ (List.mem_filterMap.mpr ⟨_, List.mem_filter.mpr ⟨member, rfl⟩, rfl⟩)
  rw [collectProduct, if_neg (by simp [real]), collectFactors]
  simp only [List.partition_eq_filter_filter]
  rw [undefined]
  rfl

theorem collectSum_of_nan {xs : List Expr} (member : .nan ∈ xs) : collectSum xs = .new .nan := by
  rw [collectSum, if_pos (List.any_eq_true.mpr ⟨_, member, rfl⟩)]

theorem collectNode_over_zero (n : Expr) :
    (collectNode (.div n .zero)).expr = .div n .zero := by
  cases n <;> rfl

/-- Numerals beside at most one other factor are multiplied in front of it. -/
theorem collectProduct_of_numerals {xs numerals factors : List Expr}
    (real : xs.any Expr.isComplex = false) (split : xs.Perm (factors ++ numerals))
    (h : ∀ x ∈ numerals, x.IsNonzeroNumeral) (symbolic : ∀ x ∈ factors, x.isNumber = false)
    (one : factors.length ≤ 1) :
    ∃ zs : List Expr, (∀ z ∈ zs, z.IsNonzeroNumeral) ∧
      (collectProduct xs).expr = .product (zs ++ factors) := by
  obtain ⟨kept, gone⟩ := filter_isNumber_of_numerals h
  have none : factors.filter Expr.isNumber = [] :=
    List.filter_eq_nil_iff.mpr fun x member => by simp [symbolic x member]
  have all : (factors.filter fun x => !x.isNumber) = factors :=
    List.filter_eq_self.mpr fun x member => by simp [symbolic x member]
  have front := split.filter Expr.isNumber
  have back := split.filter fun x => !x.isNumber
  rw [List.filter_append, none, kept, List.nil_append] at front
  rw [List.filter_append, all, gone, List.append_nil] at back
  obtain ⟨r, nonzero, coefficient⟩ := numeralProduct_of_numerals
    fun x member => h x (front.mem_iff.mp member)
  have shape : factors = [] ∨ ∃ x, factors = [x] := by
    rcases Nat.le_one_iff_eq_zero_or_eq_one.mp one with empty | single
    · exact .inl (List.length_eq_zero_iff.mp empty)
    · exact .inr (List.length_eq_one_iff.mp single)
  have alone : (xs.filter fun x => !x.isNumber) = factors := by
    rcases shape with rfl | ⟨x, rfl⟩
    · exact back.eq_nil
    · exact List.perm_singleton.mp back
  have powers : (FactorGroup.gather factors).filterMap FactorGroup.toExpr? = factors := by
    rcases shape with rfl | ⟨x, rfl⟩ <;> rfl
  have calls : reduceCalls? factors = Option.none := by
    rcases shape with rfl | ⟨x, rfl⟩ <;> rfl
  have whole : (Numeral.exact r).isZero = false := by simp [Numeral.isZero, nonzero]
  rw [collectProduct, if_neg (by simp [real]), collectFactors]
  simp only [List.partition_eq_filter_filter, Function.comp_def]
  rw [coefficient, alone, powers, calls]
  simp only [Numeral.isNaN_exact, whole, Bool.false_eq_true, ↓reduceIte, Option.getD_none]
  split
  · exact ⟨[], List.forall_mem_nil _, rfl⟩
  · refine ⟨[.number (.exact r)], List.forall_mem_singleton.mpr ⟨r, nonzero, rfl⟩, rfl⟩

/-! ## Identities between squares -/

theorem firstPair?_eq_none {α : Type*} {n : Nat} {f : Nat → Nat → Option α}
    (h : ∀ i j, f i j = none) : firstPair? n f = none := by
  cases found : firstPair? n f with
  | none => rfl
  | some r =>
    obtain ⟨i, j, -, here⟩ := exists_of_firstPair? found
    rw [h i j] at here
    cases here

theorem dropComplements?_eq_none {groups : List TermGroup} (constant : Option Numeral)
    (h : ∀ g ∈ groups, g.rest.callOfSquare? = none) : dropComplements? groups constant = none := by
  refine firstPair?_eq_none fun i j => ?_
  split
  · rename_i a b first second
    have none : a.complement? b = none := by
      rw [TermGroup.complement?, h a (List.mem_of_getElem? first)]
      split <;> rfl
    rw [none]
    rfl
  · rfl

theorem convertSquares?_eq_none (n : Numeral) {groups : List TermGroup}
    (h : ∀ g ∈ groups, g.rest.callOfSquare? = none) : convertSquares? n groups = none := by
  induction groups with
  | nil => rfl
  | cons g gs ih =>
    obtain ⟨first, rest⟩ := List.forall_mem_cons.mp h
    rw [convertSquares?, first]
    dsimp only [Option.bind_none]
    rw [ih rest]
    rfl

/-- Without a square of a call there is nothing that an identity could be used on. -/
theorem useSquareIdentity?_eq_none {groups : List TermGroup} (constant : Option Numeral)
    (h : ∀ g ∈ groups, g.rest.callOfSquare? = none) :
    useSquareIdentity? groups constant = none := by
  unfold useSquareIdentity?
  rw [dropComplements?_eq_none constant h]
  dsimp only
  split
  · rw [convertSquares?_eq_none _ h]
    split <;> rfl
  · rfl

namespace Reading

variable {K : Type*} [Field K] {R : Reading K} {atOnce later : Expr → Prop} {differences : Prop}
  {sums : Bool}

theorem Plain.callOfSquare? (plain : R.Plain) {e : Expr} (h : R.Defined e) :
    e.callOfSquare? = none := by
  cases found : e.callOfSquare? with
  | none => rfl
  | some square =>
    obtain ⟨f, arg⟩ := square
    rw [Expr.eq_of_callOfSquare? found] at h
    exact absurd ((defined_pow _ _).mp h).1 plain.not_call

/-! ## The group of the division -/

/-- No term that has a value is like this one. -/
structure StandsApart (R : Reading K) (e : Expr) : Prop where
  coefficient : ∃ r, e.asMultiple.1 = .exact r
  rest : ¬R.Defined e.asMultiple.2
  square : e.asMultiple.2.callOfSquare? = none

/-- The group of a term that is like none of the others. -/
def ownGroup (x : Expr) : TermGroup := ⟨x.asMultiple.2, x.asMultiple.1, some x⟩

theorem insert_own {x : Expr} (apart : R.StandsApart x) {groups : List TermGroup}
    (h : ∀ g ∈ groups, R.GroupDefined g) :
    TermGroup.insert x x.asMultiple groups = groups ++ [ownGroup x] := by
  induction groups with
  | nil => rfl
  | cons g gs ih =>
    obtain ⟨first, others⟩ := List.forall_mem_cons.mp h
    have different : g.rest ≠ x.asMultiple.2 := fun same => apart.rest (same ▸ first.rest)
    rw [TermGroup.insert, if_neg different, ih others, List.cons_append]

variable [CharZero K]

theorem insert_around_own {x t : Expr} (apart : R.StandsApart x) (ht : R.Defined t)
    {before after : List TermGroup} (front : ∀ g ∈ before, R.GroupDefined g)
    (back : ∀ g ∈ after, R.GroupDefined g) :
    ∃ first last, TermGroup.insert t t.asMultiple (before ++ ownGroup x :: after) =
        first ++ ownGroup x :: last ∧
      (∀ g ∈ first, R.GroupDefined g) ∧ ∀ g ∈ last, R.GroupDefined g := by
  induction before with
  | nil =>
    obtain ⟨-, -, rest, -⟩ := asMultiple_spec ht
    have different : (ownGroup x).rest ≠ t.asMultiple.2 := fun same =>
      apart.rest (by rwa [← same] at rest)
    refine ⟨[], TermGroup.insert t t.asMultiple after, ?_, List.forall_mem_nil _,
      (insert_spec ht back).1⟩
    rw [List.nil_append, TermGroup.insert, if_neg different, List.nil_append]
  | cons g gs ih =>
    obtain ⟨here, others⟩ := List.forall_mem_cons.mp front
    rw [List.cons_append, TermGroup.insert]
    split
    · rename_i same
      have single : ∀ g' ∈ [g], R.GroupDefined g' := List.forall_mem_singleton.mpr here
      have merged := (insert_spec ht single).1
      rw [TermGroup.insert, if_pos same] at merged
      exact ⟨_ :: gs, after, rfl,
        List.forall_mem_cons.mpr ⟨merged _ List.mem_cons_self, others⟩, back⟩
    · obtain ⟨first, last, inserted, earlier, rest⟩ := ih others
      refine ⟨g :: first, last, ?_, List.forall_mem_cons.mpr ⟨here, earlier⟩, rest⟩
      rw [inserted, List.cons_append]

/-- Gathered among terms that have values, it is a group of its own. -/
theorem gather_around_own {x : Expr} (apart : R.StandsApart x) {before after : List Expr}
    (front : ∀ t ∈ before, R.Defined t) (back : ∀ t ∈ after, R.Defined t) :
    ∃ first last, TermGroup.gather (before ++ x :: after) = first ++ ownGroup x :: last ∧
      (∀ g ∈ first, R.GroupDefined g) ∧ ∀ g ∈ last, R.GroupDefined g := by
  have fold {first last : List TermGroup} (hf : ∀ g ∈ first, R.GroupDefined g)
      (hl : ∀ g ∈ last, R.GroupDefined g) :
      ∃ first' last', after.foldl (fun groups term => TermGroup.insert term term.asMultiple groups)
          (first ++ ownGroup x :: last) = first' ++ ownGroup x :: last' ∧
        (∀ g ∈ first', R.GroupDefined g) ∧ ∀ g ∈ last', R.GroupDefined g := by
    induction after generalizing first last with
    | nil => exact ⟨first, last, rfl, hf, hl⟩
    | cons t ts ih =>
      obtain ⟨here, rest⟩ := List.forall_mem_cons.mp back
      obtain ⟨first', last', inserted, hf', hl'⟩ := insert_around_own apart here hf hl
      rw [List.foldl_cons, inserted]
      exact ih rest hf' hl'
  have defined := (gather_spec front).1
  rw [TermGroup.gather, List.foldl_append, List.foldl_cons]
  show ∃ first last, List.foldl _
    (TermGroup.insert x x.asMultiple (TermGroup.gather before)) after =
      first ++ ownGroup x :: last ∧ _
  rw [insert_own apart defined]
  exact fold defined (List.forall_mem_nil _)

omit [CharZero K] in
theorem Plain.not_complex (plain : R.Plain) {e : Expr} (h : R.Defined e) :
    e.isComplex = false := isComplex_of_defined plain.real h

omit [CharZero K] in
/-- Among the addends that have values a constant is a numeral. -/
theorem Plain.isSome_numeral? (plain : R.Plain) {c : Expr} (h : R.Defined c)
    (constant : c.isAddedConstant = true) : c.numeral?.isSome := by
  have notComplex := plain.not_complex h
  cases c with
  | complex z => cases notComplex
  | number _ | ident _ | call _ _ | node _ _ =>
    simpa [Expr.isAddedConstant, Expr.complex?] using constant

omit [CharZero K] in
theorem callOfSquare?_around_own (plain : R.Plain) {x : Expr} (apart : R.StandsApart x)
    {first last : List TermGroup} (front : ∀ g ∈ first, R.GroupDefined g)
    (back : ∀ g ∈ last, R.GroupDefined g) :
    ∀ g ∈ first ++ ownGroup x :: last, g.rest.callOfSquare? = none :=
  List.forall_mem_append.mpr ⟨fun g member => plain.callOfSquare? (front g member).rest,
    List.forall_mem_cons.mpr
      ⟨apart.square, fun g member => plain.callOfSquare? (back g member).rest⟩⟩

theorem shape_of_symbolic {x : Expr} (symbolic : x.isAddedConstant = false) :
    x.isNaN = false ∧ x.isComplex = false ∧ x.isZero = false := by
  cases x with
  | number _ | complex _ => cases symbolic
  | ident _ | call _ _ | node _ _ => exact ⟨rfl, rfl, rfl⟩

/-- Among terms that have values it stays an addend as it is. -/
theorem collectSum_around_own (plain : R.Plain) {x : Expr} (apart : R.StandsApart x)
    (symbolic : x.isAddedConstant = false) {before after : List Expr}
    (front : ∀ t ∈ before, R.Defined t) (back : ∀ t ∈ after, R.Defined t) :
    (collectSum (before ++ x :: after)).expr = .nan ∨
      ∃ first last, (collectSum (before ++ x :: after)).expr = .sum (first ++ x :: last) ∧
        (∀ t ∈ first, R.Defined t) ∧ ∀ t ∈ last, R.Defined t := by
  obtain ⟨number, notComplex, notZero⟩ := shape_of_symbolic symbolic
  have others : ∀ t ∈ before ++ after, R.Defined t := List.forall_mem_append.mpr ⟨front, back⟩
  have none {p : Expr → Bool} (own : p x = false) (rest : ∀ t, R.Defined t → p t = false) :
      (before ++ x :: after).any p = false := by
    refine List.any_eq_false.mpr fun t member => ?_
    rcases List.mem_cons.mp (List.perm_middle.mem_iff.mp member) with rfl | other
    · simp [own]
    · simp [rest t (others t other)]
  have real := none notComplex fun t => plain.not_complex
  have known := none number fun t => isNaN_of_defined
  have constants : (before ++ x :: after).filter Expr.isAddedConstant =
      (before ++ after).filter Expr.isAddedConstant := by
    rw [List.filter_append, List.filter_cons, symbolic, List.filter_append]
    rfl
  have terms : (before ++ x :: after).filter (not ∘ Expr.isAddedConstant) =
      before.filter (not ∘ Expr.isAddedConstant) ++
        x :: after.filter (not ∘ Expr.isAddedConstant) := by
    rw [List.filter_append, List.filter_cons, Function.comp_apply, symbolic]
    rfl
  have numerals : ∀ c ∈ (before ++ after).filter Expr.isAddedConstant, c.numeral?.isSome :=
    fun c member => plain.isSome_numeral? (others c (List.mem_filter.mp member).1)
      (List.mem_filter.mp member).2
  obtain ⟨constantDefined, -⟩ := addedConstant_spec
    (defined_filter (p := Expr.isAddedConstant) others) (.inr numerals)
  obtain ⟨first, last, gathered, firstDefined, lastDefined⟩ := gather_around_own apart
    (defined_filter (p := not ∘ Expr.isAddedConstant) front)
    (defined_filter (p := not ∘ Expr.isAddedConstant) back)
  rw [collectSum, known, real]
  simp only [Bool.false_eq_true, ↓reduceIte]
  rw [collectAddends, List.partition_eq_filter_filter]
  dsimp only
  rw [constants, terms, gathered]
  split
  · exact .inl rfl
  · rw [real, useSquareIdentity?_eq_none _
      (callOfSquare?_around_own plain apart firstDefined lastDefined)]
    refine .inr ⟨(first.map TermGroup.toExpr).filter fun e => !e.isZero,
      ((last.map TermGroup.toExpr).filter fun e => !e.isZero) ++
        (addedConstant ((before ++ after).filter Expr.isAddedConstant)).toList, ?_, ?_, ?_⟩
    · simp [ownGroup, TermGroup.toExpr, notZero]
    · exact (groupExprs_spec firstDefined).1
    · refine List.forall_mem_append.mpr ⟨(groupExprs_spec lastDefined).1, fun c member => ?_⟩
      exact constantDefined c (by simpa using member)

/-! ## What stands apart -/

omit [CharZero K] in
/-- A tree without a numeral coefficient is its own rest. -/
theorem standsApart_of_whole {e : Expr} (undefined : ¬R.Defined e)
    (whole : e.asMultiple = (.one, e)) (square : e.callOfSquare? = none) : R.StandsApart e where
  coefficient := ⟨1, by rw [whole]; rfl⟩
  rest := by rwa [whole]
  square := by rwa [whole]

theorem ZeroDivided.standsApart {n d : Expr} (h : R.ZeroDivided n d) :
    R.StandsApart (.div n d) := by
  obtain ⟨r, top, ht, above⟩ := asMultiple_spec h.dividend
  obtain ⟨s, bottom, hu, below⟩ := asMultiple_spec h.divisor
  have split : (Expr.div n d).asMultiple = Expr.quotientMultiple n.asMultiple d.asMultiple := by
    rw [Expr.div, Expr.asMultiple]
  rw [h.zero] at below
  have parts : (Expr.div n d).asMultiple =
      if s = 0 then
        (.one, .div (.scale (.exact r) n.asMultiple.2) (.scale (.exact s) d.asMultiple.2))
      else (.exact (r / s), if d.asMultiple.2.isOne then n.asMultiple.2
        else .div n.asMultiple.2 d.asMultiple.2) := by
    rw [split, Expr.quotientMultiple, top, bottom]
    by_cases zero : s = 0
    · simp [zero, Numeral.isZero]
    · have whole : (Numeral.exact s).isZero = false := by simp [Numeral.isZero, zero]
      simp [zero, whole, Numeral.div_exact zero]
  by_cases zero : s = 0
  · rw [if_pos zero] at parts
    refine ⟨⟨1, by rw [parts]; rfl⟩, ?_, by rw [parts]; rfl⟩
    rw [parts]
    intro defined
    apply ((defined_div _ _).mp defined).2.2
    rw [(scale_spec s hu).2, below]
  · rw [if_neg zero] at parts
    have restZero : R.val d.asMultiple.2 = 0 :=
      (mul_eq_zero.mp below).resolve_left (Rat.cast_ne_zero.mpr zero)
    have notOne : d.asMultiple.2.isOne = false := by
      by_contra one
      have := val_of_isOne hu (by simpa using one)
      rw [restZero] at this
      exact zero_ne_one this
    rw [notOne] at parts
    refine ⟨⟨r / s, by rw [parts]⟩, ?_, by rw [parts]; rfl⟩
    rw [parts]
    exact fun defined => ((defined_div _ _).mp defined).2.2 restZero

omit [CharZero K] in
theorem standsApart_over_zero (n : Expr) : R.StandsApart (.div n .zero) := by
  have split : (Expr.div n .zero).asMultiple =
      (.one, .div (.scale n.asMultiple.1 n.asMultiple.2) (.scale .zero .one)) := by
    rw [Expr.div, Expr.asMultiple]
    rfl
  refine ⟨⟨1, by rw [split]; rfl⟩, ?_, by rw [split]; rfl⟩
  rw [split]
  intro defined
  apply ((defined_div _ _).mp defined).2.2
  exact val_zero

theorem asMultiple_of_isScalar {e : Expr} (h : e.IsScalar) :
    ∃ r : Rat, r ≠ 0 ∧ e.asMultiple = (.exact r, .one) := by
  rcases h.cases with ⟨r, nonzero, rfl⟩ | ⟨xs, rfl, numerals⟩
  · exact ⟨r, nonzero, by rw [Expr.asMultiple]⟩
  · obtain ⟨r, nonzero, coefficient⟩ := numeralProduct_of_numerals numerals
    refine ⟨r, nonzero, ?_⟩
    rw [Expr.asMultiple, coefficient, (filter_isNumber_of_numerals numerals).2]
    rfl

omit [CharZero K] in
/-- Below a bar there is only a numeral coefficient. -/
theorem StandsApart.quotient {n d : Expr} (h : n = .nan ∨ R.StandsApart n) (scalar : d.IsScalar) :
    R.StandsApart (.div n d) := by
  obtain ⟨s, nonzero, bottom⟩ := asMultiple_of_isScalar scalar
  have split : (Expr.div n d).asMultiple = Expr.quotientMultiple n.asMultiple (.exact s, .one) := by
    rw [Expr.div, Expr.asMultiple, bottom]
  have whole : (Numeral.exact s).isZero = false := by simp [Numeral.isZero, nonzero]
  rcases h with rfl | apart
  · have parts : (Expr.div .nan d).asMultiple = (.one, .div .nan (.scale (.exact s) .one)) := by
      rw [split, Expr.nan, Expr.asMultiple, Expr.quotientMultiple]
      simp [Numeral.isNaN, whole]
      rfl
    refine ⟨⟨1, by rw [parts]; rfl⟩, ?_, by rw [parts]; rfl⟩
    rw [parts]
    intro defined
    cases ((defined_div _ _).mp defined).1
  · obtain ⟨r, top⟩ := apart.coefficient
    have one : Expr.one.isOne = true := rfl
    have parts : (Expr.div n d).asMultiple = (.exact (r / s), n.asMultiple.2) := by
      rw [split, Expr.quotientMultiple, top]
      simp [whole, one, Numeral.div_exact nonzero]
    exact ⟨⟨r / s, by rw [parts]⟩, by rw [parts]; exact apart.rest,
      by rw [parts]; exact apart.square⟩

omit [CharZero K] in
/-- In a product with numerals it is the rest. -/
theorem StandsApart.multiple {x : Expr} (apart : R.StandsApart x) (undefined : ¬R.Defined x)
    (square : x.callOfSquare? = none) (symbolic : x.isNumber = false) {zs : List Expr}
    (numerals : ∀ z ∈ zs, z.IsNonzeroNumeral) : R.StandsApart (.product (zs ++ [x])) := by
  match zs, numerals with
  | [], _ => exact apart
  | z :: zs, numerals =>
    have shape : Expr.product (z :: zs ++ [x]) = .node .multiply (z :: zs ++ [x]) := by
      cases zs <;> rfl
    obtain ⟨r, -, coefficient⟩ := numeralProduct_of_numerals numerals
    have plain : x.number? = none := by
      cases x with
      | number _ => cases symbolic
      | _ => rfl
    have parts : (Expr.product (z :: zs ++ [x])).asMultiple = (.exact r, x) := by
      rw [shape, Expr.asMultiple, List.filter_append, (filter_isNumber_of_numerals numerals).2,
        ← coefficient, Expr.numeralProduct, List.filterMap_append]
      simp [symbolic, plain, Expr.numeralProduct, Expr.product]
    exact ⟨⟨r, by rw [parts]⟩, by rwa [parts], by rwa [parts]⟩

/-! ## Collection at every node -/

omit [CharZero K] in
theorem Exposed.callOfSquare? (plain : R.Plain) {e : Expr}
    (h : R.Exposed atOnce differences sums e) : e.callOfSquare? = none := by
  cases found : e.callOfSquare? with
  | none => rfl
  | some square =>
    obtain ⟨f, arg⟩ := square
    rw [Expr.eq_of_callOfSquare? found] at h
    cases h with
    | reciprocal base => exact absurd base plain.not_call

omit [CharZero K] in
theorem Exposed.not_complex {e : Expr} (h : R.Exposed atOnce differences sums e) :
    e.isComplex = false := by
  cases h <;> rfl

/-- Of the constants only the undefined one counts as a division by zero. -/
theorem Exposed.not_constant {e : Expr} (h : R.Exposed atOnce differences sums e)
    (known : e ≠ .nan) : e.isAddedConstant = false := by
  by_contra constant
  have some : e.complex?.isSome = true := by
    rwa [Bool.not_eq_false] at constant
  obtain ⟨z, found⟩ := Option.isSome_iff_exists.mp some
  unfold Expr.complex? at found
  split at found
  · cases h.not_complex
  · obtain ⟨x, numeral, -⟩ := Option.map_eq_some_iff.mp found
    unfold Expr.numeral? at numeral
    split at numeral
    · exact known (h.eq_nan_of_isNumber rfl)
    · obtain ⟨r, rational, -⟩ := Option.map_eq_some_iff.mp numeral
      exact h.not_defined (rational?_spec rational).1

/-- What is collected still holds the division, and no term with a value is like it. -/
structure Collected (R : Reading K) (sums : Bool) (e : Expr) : Prop where
  exposed : R.Exposed (· = .zero) False sums e
  apart : e = .nan ∨ R.StandsApart e

omit [CharZero K] in
theorem Collected.nan : R.Collected sums .nan := ⟨.nan, .inl rfl⟩

theorem collected_zeroDivided {n d : Expr} (h : R.ZeroDivided n d) :
    R.Collected sums (.div n d) := ⟨h.exposed, .inr h.standsApart⟩

omit [CharZero K] in
theorem zeroDivided_one {d : Expr} (divisor : R.Defined d) (zero : R.val d = 0) :
    R.ZeroDivided .one d :=
  ⟨defined_one, divisor, by rw [val_one]; exact one_ne_zero, zero⟩

/-- A power of zero below the bar. -/
theorem zeroDivided_power {b : Expr} {n : ℤ} (base : R.Defined b) (zero : R.val b = 0)
    (negative : n < 0) :
    R.ZeroDivided .one (if n = -1 then b else .pow b (.ofInt (-n))) := by
  split
  · exact zeroDivided_one base zero
  · have exponent : R.val (.ofInt (-n)) = ((-n : ℤ) : K) := val_ofInt _
    refine zeroDivided_one ((defined_pow _ _).mpr ⟨base, defined_ofInt _, -n, exponent.symm, ?_⟩) ?_
    · intro _
      omega
    · rw [val_pow, exponent, power_intCast, zero, zero_zpow _ (by omega)]

/-- A negative power of zero that nothing is made of. -/
theorem Exposed.collected_power (plain : R.Plain) {b m : Expr}
    (h : R.Exposed (· = .zero) False false (.pow b m)) : R.Collected false (.pow b m) := by
  have own : (Expr.pow b m).asMultiple = (.one, .pow b m) := by
    rw [Expr.pow, Expr.asMultiple] <;> simp
  exact ⟨h, .inr (standsApart_of_whole h.not_defined own (h.callOfSquare? plain))⟩

theorem collected_symbolicPower (plain : R.Plain) {b m : Expr} {k : ℤ} (base : R.Defined b)
    (zero : R.val b = 0) (exponent : R.Defined m) (value : R.val m = k) (negative : k < 0) :
    R.Collected false (simplifySymbolicPower b m).expr := by
  unfold simplifySymbolicPower
  split
  · rename_i n found
    obtain rfl := Expr.eq_of_integerExponent found
    obtain rfl : n = k := by
      rw [val_exact, Rat.cast_intCast] at value
      exact_mod_cast value
    unfold simplifyIntegerPower
    rw [if_pos negative]
    exact collected_zeroDivided (zeroDivided_power base zero negative)
  · split
    · rename_i arg _ logarithm
      rw [Expr.eq_apply_of_argument? logarithm] at exponent
      exact absurd exponent plain.not_call
    · exact (Exposed.reciprocal base zero exponent value negative).collected_power plain

theorem collected_zeroPower (plain : R.Plain) {m : Expr} {k : ℤ} (exponent : R.Defined m)
    (value : R.val m = k) (negative : k < 0) :
    R.Collected false (simplifyNumeralPower (.exact 0) (.exact k) m).expr := by
  have below : (Numeral.exact k).isNegative = true := by
    rw [Numeral.isNegative_exact]
    exact_mod_cast negative
  simp only [simplifyNumeralPower, Numeral.isExact_exact, Bool.not_true, Bool.or_self,
    Bool.false_eq_true, ↓reduceIte, Numeral.neg_exact, Numeral.isInteger_intCast, below,
    Bool.and_self]
  obtain ⟨j, rfl⟩ : ∃ j : Nat, k = -(j : ℤ) := ⟨k.natAbs, by omega⟩
  have opposite : (-((-(j : ℤ) : ℤ) : Rat)) = (j : Rat) := by push_cast; ring
  rw [opposite]
  split
  · rename_i z exactly
    obtain rfl := Numeral.power?_natCast exactly
    have positive : j ≠ 0 := by omega
    exact collected_zeroDivided (zeroDivided_one rfl (by simp [positive]))
  · have base : R.Defined (.number (.exact 0)) := rfl
    have zero : R.val (.number (.exact 0)) = 0 := by simp
    exact (Exposed.reciprocal base zero exponent value negative).collected_power plain

/-- A negative power of zero becomes a quotient with a power of zero below the bar. -/
theorem collected_reciprocal (plain : R.Plain) {b m : Expr} {k : ℤ} (base : R.Defined b)
    (zero : R.val b = 0) (exponent : R.Defined m) (value : R.val m = k) (negative : k < 0) :
    R.Collected false (simplifyPower b m).expr := by
  have symbolic := collected_symbolicPower plain base zero exponent value negative
  unfold simplifyPower
  split
  · cases plain.not_complex base
  · rename_i x
    split
    · rename_i y found
      obtain ⟨r, rfl⟩ := Numeral.exists_exact base
      obtain ⟨s, rfl, same⟩ := numeral?_spec exponent found
      obtain rfl : r = 0 := by simpa using zero
      obtain rfl : s = k := by
        rw [value] at same
        exact_mod_cast same.symm
      exact collected_zeroPower plain exponent value negative
    · exact symbolic
  · exact symbolic

theorem Collected.multiple (plain : R.Plain) {xs ys : List Expr} {x : Expr}
    (split : xs.Perm (x :: ys)) (h : R.Collected sums x) (others : ∀ y ∈ ys, y.IsNonzeroNumeral) :
    R.Collected sums (collectProduct xs).expr := by
  have real : xs.any Expr.isComplex = false := by
    rw [List.any_eq_false]
    intro y member
    rcases List.mem_cons.mp (split.mem_iff.mp member) with rfl | numeral
    · simp [h.exposed.not_complex]
    · simp [plain.not_complex (defined_of_isNonzeroNumeral (others y numeral))]
  by_cases known : x = .nan
  · rw [collectProduct_of_nan real (split.mem_iff.mpr (known ▸ List.mem_cons_self))]
    exact .nan
  have symbolic : x.isNumber = false := by
    rw [← Bool.not_eq_true]
    exact fun number => known (h.exposed.eq_nan_of_isNumber number)
  have factors : xs.Perm ([x] ++ ys) := split
  obtain ⟨zs, numerals, collected⟩ := collectProduct_of_numerals real factors others
    (List.forall_mem_singleton.mpr symbolic) (le_refl _)
  rw [collected]
  have apart := h.apart.resolve_left known
  exact ⟨.of_product List.perm_append_comm h.exposed numerals,
    .inr (apart.multiple h.exposed.not_defined (h.exposed.callOfSquare? plain) symbolic numerals)⟩

theorem Collected.sum (plain : R.Plain) {xs ys : List Expr} {x : Expr}
    (split : xs.Perm (x :: ys)) (h : R.Collected true x) (others : ∀ y ∈ ys, R.Defined y) :
    R.Collected true (collectSum xs).expr := by
  by_cases known : x = .nan
  · rw [collectSum_of_nan (split.mem_iff.mpr (known ▸ List.mem_cons_self))]
    exact .nan
  obtain ⟨before, after, rfl⟩ := List.append_of_mem (split.mem_iff.mpr List.mem_cons_self)
  have values : ∀ y ∈ before ++ after, R.Defined y := fun y member =>
    others y ((List.perm_middle.symm.trans split).cons_inv.mem_iff.mp member)
  obtain ⟨front, back⟩ := List.forall_mem_append.mp values
  have apart := h.apart.resolve_left known
  rcases collectSum_around_own plain apart (h.exposed.not_constant known) front back with
    undefined | ⟨first, last, collected, firstDefined, lastDefined⟩
  · rw [undefined]
    exact .nan
  · have exposed : R.Exposed (· = .zero) False true (.sum (first ++ x :: last)) :=
      .of_sum List.perm_middle h.exposed (List.forall_mem_append.mpr ⟨firstDefined, lastDefined⟩)
    rw [collected]
    refine ⟨exposed, .inr ?_⟩
    match first, last with
    | [], [] => exact apart
    | [], y :: ys | [y], ys | y :: z :: zs, ys =>
      exact standsApart_of_whole exposed.not_defined (by simp [Expr.sum, Expr.asMultiple]) rfl

theorem exposure_collectLike (plain : R.Plain) (laws : R.Lawful)
    (next : ∀ d, atOnce d → (collectLike d).expr = .zero) :
    R.Exposure collectNode (fun _ => True) atOnce False R.Collected where
  inSum h := ⟨h.exposed.inSum, h.apart⟩
  nan := .nan
  numeral _ := rfl
  scalars {xs} numerals := by
    have real : xs.any Expr.isComplex = false := List.any_eq_false.mpr fun x member => by
      simp [plain.not_complex (defined_of_isNonzeroNumeral (numerals x member))]
    have factors : xs.Perm ([] ++ xs) := List.Perm.refl xs
    obtain ⟨zs, scalars, collected⟩ := collectProduct_of_numerals real factors numerals
      (List.forall_mem_nil _) (Nat.zero_le _)
    show (collectProduct xs).expr.IsScalar
    rw [collected, List.append_nil]
    exact Expr.isScalar_product scalars
  keeps e _ := collectNode_keeps laws.only laws.unit laws.collection e
  divided {n d} _ h := by
    show R.Collected false (simplifyQuotient n d).expr
    rw [simplifyQuotient, constantQuotient?_of_defined plain.real h.dividend h.divisor]
    exact collected_zeroDivided h
  atOnce {n d} _ seen _ _ := by
    have zero : (everywhere collectNode d).expr = .zero := next d seen
    rw [zero, collectNode_over_zero]
    exact ⟨.divided defined_zero val_zero (.inr rfl), .inr (standsApart_over_zero n)⟩
  reciprocal base zero exponent value negative :=
    collected_reciprocal plain base zero exponent value negative
  quotient {n d} _ h scalar := by
    have below : R.Defined d :=
      (defined_factors d).mp fun f member => defined_of_isNonzeroNumeral (scalar f member)
    have none : Expr.constantQuotient? n d = none := by
      rw [Expr.constantQuotient?, h.exposed.not_complex, plain.not_complex below]
      rfl
    show R.Collected false (simplifyQuotient n d).expr
    rw [simplifyQuotient, none]
    exact ⟨.quotient h.exposed scalar, .inr (.quotient h.apart scalar)⟩
  multiple split h others := Collected.multiple plain split h others
  sum split h others := Collected.sum plain split h others
  minuend := nofun
  subtrahend := nofun

end Reading

end SymbolicAlgebra
