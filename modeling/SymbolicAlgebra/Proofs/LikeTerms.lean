import SymbolicAlgebra.Proofs.CallLaws
import SymbolicAlgebra.Sum.LikeTerms

/-! Gathering like terms, and using the identities between squares, keeps the value of a sum. -/
namespace SymbolicAlgebra

/-! ## Pairs of positions -/

theorem exists_of_firstPair? {α : Type*} {n : Nat} {f : Nat → Nat → Option α} {r : α}
    (h : firstPair? n f = some r) : ∃ i j, i ≠ j ∧ f i j = some r := by
  obtain ⟨i, -, inner⟩ := List.exists_of_findSome?_eq_some h
  obtain ⟨j, -, found⟩ := List.exists_of_findSome?_eq_some inner
  split at found
  · cases found
  · rename_i different
    exact ⟨i, j, different, found⟩

theorem eraseIdx_perm {α : Type*} {xs : List α} {i : Nat} {a : α} (h : xs[i]? = some a) :
    (a :: xs.eraseIdx i).Perm xs := by
  obtain ⟨inside, rfl⟩ := List.getElem?_eq_some_iff.mp h
  exact List.getElem_cons_eraseIdx_perm inside

/-- Two elements and the list without them. -/
theorem eraseBoth_perm {α : Type*} {xs : List α} {i j : Nat} {a b : α} (different : i ≠ j)
    (ha : xs[i]? = some a) (hb : xs[j]? = some b) : (a :: b :: eraseBoth xs i j).Perm xs := by
  rcases Nat.lt_or_gt_of_ne different with less | greater
  · have inner : (xs.eraseIdx j)[i]? = some a := by
      rw [List.getElem?_eraseIdx_of_lt less, ha]
    rw [eraseBoth, Nat.max_eq_right less.le, Nat.min_eq_left less.le]
    exact (List.Perm.swap b a _).trans
      (((eraseIdx_perm inner).cons b).trans (eraseIdx_perm hb))
  · have inner : (xs.eraseIdx i)[j]? = some b := by
      rw [List.getElem?_eraseIdx_of_lt greater, hb]
    rw [eraseBoth, Nat.max_eq_left greater.le, Nat.min_eq_right greater.le]
    exact ((eraseIdx_perm inner).cons a).trans (eraseIdx_perm ha)

theorem Expr.eq_of_callOfSquare? {e arg : Expr} {f : NamedFunction}
    (h : e.callOfSquare? = some (f, arg)) : e = .callSquared f arg := by
  unfold Expr.callOfSquare? at h
  split at h
  · rename_i exponent
    simp only [Option.ite_none_right_eq_some, Option.some.injEq, Prod.mk.injEq] at h
    obtain ⟨rfl, rfl, rfl⟩ := h
    rfl
  · cases h

namespace Reading

variable {K : Type*} [Field K] {R : Reading K}

/-! ## Groups of like terms -/

noncomputable def groupVal (R : Reading K) (g : TermGroup) : K := g.coefficient.val K * R.val g.rest

/-- A group has a value; a term kept as it was written has that of its group. -/
structure GroupDefined (R : Reading K) (g : TermGroup) : Prop where
  coefficient : g.coefficient.isExact
  rest : R.Defined g.rest
  asWritten : ∀ term ∈ g.asWritten, R.Defined term ∧ R.val term = R.groupVal g

section Groups

variable [CharZero K]

theorem groupExpr_spec {g : TermGroup} (h : R.GroupDefined g) :
    R.Defined g.toExpr ∧ R.val g.toExpr = R.groupVal g := by
  unfold TermGroup.toExpr
  split
  · rename_i term written
    exact h.asWritten term written
  · obtain ⟨r, coefficient⟩ := Numeral.exists_exact h.coefficient
    rw [groupVal, coefficient]
    exact scale_spec r h.rest

/-- A term adds its value to the groups. -/
theorem insert_spec {term : Expr} {groups : List TermGroup} (ht : R.Defined term)
    (hg : ∀ g ∈ groups, R.GroupDefined g) :
    (∀ g ∈ TermGroup.insert term term.asMultiple groups, R.GroupDefined g) ∧
      ((TermGroup.insert term term.asMultiple groups).map R.groupVal).sum =
        (groups.map R.groupVal).sum + R.val term := by
  obtain ⟨r, coefficient, rest, value⟩ := asMultiple_spec ht
  induction groups with
  | nil =>
    have own : R.groupVal ⟨term.asMultiple.2, term.asMultiple.1, some term⟩ = R.val term := by
      rw [groupVal, coefficient, Numeral.val_exact, value]
    refine ⟨?_, by simp [TermGroup.insert, own]⟩
    intro g member
    rw [TermGroup.insert, List.mem_singleton] at member
    subst member
    refine ⟨by simp [coefficient], rest, ?_⟩
    rintro t ⟨⟩
    exact ⟨ht, own.symm⟩
  | cons g gs ih =>
    obtain ⟨first, others⟩ := List.forall_mem_cons.mp hg
    unfold TermGroup.insert
    split
    · rename_i same
      obtain ⟨s, exact⟩ := Numeral.exists_exact first.coefficient
      constructor
      · refine List.forall_mem_cons.mpr ⟨⟨?_, first.rest, fun _ none => nomatch none⟩, others⟩
        simp [exact, coefficient]
      · simp only [List.map_cons, List.sum_cons, groupVal, exact, coefficient, Numeral.add_exact,
          Numeral.val_exact, Rat.cast_add, ← value, same]
        ring
    · obtain ⟨defined, total⟩ := ih others
      refine ⟨List.forall_mem_cons.mpr ⟨first, defined⟩, ?_⟩
      rw [List.map_cons, List.sum_cons, total, List.map_cons, List.sum_cons, add_assoc]

theorem gather_spec {terms : List Expr} (h : ∀ t ∈ terms, R.Defined t) :
    (∀ g ∈ TermGroup.gather terms, R.GroupDefined g) ∧
      ((TermGroup.gather terms).map R.groupVal).sum = (terms.map R.val).sum := by
  have fold (groups : List TermGroup) (hg : ∀ g ∈ groups, R.GroupDefined g) :
      (∀ g ∈ terms.foldl (fun groups term => TermGroup.insert term term.asMultiple groups) groups,
          R.GroupDefined g) ∧
        ((terms.foldl (fun groups term => TermGroup.insert term term.asMultiple groups) groups).map
          R.groupVal).sum = (groups.map R.groupVal).sum + (terms.map R.val).sum := by
    induction terms generalizing groups with
    | nil => simpa using hg
    | cons t ts ih =>
      obtain ⟨first, rest⟩ := List.forall_mem_cons.mp h
      obtain ⟨defined, value⟩ := insert_spec first hg
      obtain ⟨result, total⟩ := ih rest _ defined
      refine ⟨result, ?_⟩
      rw [List.foldl_cons, total, value, List.map_cons, List.sum_cons, add_assoc]
  simpa [TermGroup.gather] using fold [] fun _ member => nomatch member

/-- The terms that groups stand for, zeros left out. -/
theorem groupExprs_spec {groups : List TermGroup} (h : ∀ g ∈ groups, R.GroupDefined g) :
    (∀ e ∈ (groups.map TermGroup.toExpr).filter (fun e => !e.isZero), R.Defined e) ∧
      (((groups.map TermGroup.toExpr).filter fun e => !e.isZero).map R.val).sum =
        (groups.map R.groupVal).sum := by
  have defined : ∀ e ∈ groups.map TermGroup.toExpr, R.Defined e := by
    intro e member
    obtain ⟨g, inside, rfl⟩ := List.mem_map.mp member
    exact (groupExpr_spec (h g inside)).1
  refine ⟨defined_filter defined, ?_⟩
  rw [sum_filter fun e member dropped => val_of_isZero (defined e member) (by simpa using dropped),
    List.map_map]
  exact congrArg List.sum (List.map_congr_left fun g inside => (groupExpr_spec (h g inside)).2)

/-! ## Identities between squares -/

omit [CharZero K] in
theorem callSquared_spec {f : NamedFunction} {arg : Expr} :
    R.Defined (.callSquared f arg) ↔ R.Defined arg ∧ (R.call f [R.val arg]).isSome := by
  have exponent : R.val (.ofInt 2) = ((2 : ℤ) : K) := val_ofInt 2
  constructor
  · intro h
    simpa [Expr.apply] using ((defined_pow _ _).mp h).1
  · intro h
    refine (defined_pow _ _).mpr ⟨?_, defined_ofInt 2, 2, exponent.symm, fun _ => by norm_num⟩
    simpa [Expr.apply] using h

theorem val_callSquared {f : NamedFunction} {arg : Expr} {v : K}
    (h : R.call f [R.val arg] = some v) : R.val (.callSquared f arg) = v ^ 2 := by
  have exponent : R.val (.ofInt 2) = ((2 : ℕ) : K) := by simp
  rw [Expr.callSquared, val_pow, exponent, power_natCast]
  simp [Expr.apply, h]

theorem complement?_spec (laws : R.CollectionLaws) {a b : TermGroup} {c : Numeral}
    (ha : R.GroupDefined a) (hb : R.GroupDefined b) (h : a.complement? b = some c) :
    c.isExact ∧ R.groupVal a + R.groupVal b = c.val K := by
  unfold TermGroup.complement? at h
  split at h
  · split at h
    · rename_i f u g v first second
      split at h
      · rename_i s sign
        simp only [Option.ite_none_right_eq_some, Option.some.injEq] at h
        obtain ⟨⟨rfl, coefficient⟩, rfl⟩ := h
        obtain ⟨r, exactly⟩ := Numeral.exists_exact ha.coefficient
        have left := ha.rest
        have right := hb.rest
        rw [Expr.eq_of_callOfSquare? first, callSquared_spec, Option.isSome_iff_exists] at left
        rw [Expr.eq_of_callOfSquare? second, callSquared_spec, Option.isSome_iff_exists] at right
        obtain ⟨-, x, hx⟩ := left
        obtain ⟨-, y, hy⟩ := right
        refine ⟨ha.coefficient, ?_⟩
        rw [groupVal, groupVal, Expr.eq_of_callOfSquare? first, Expr.eq_of_callOfSquare? second,
          val_callSquared hx, val_callSquared hy, coefficient, exactly]
        have one := laws.squares sign hx hy
        simp only [Numeral.ofInt, Numeral.mul_exact, Numeral.val_exact, Rat.cast_mul,
          Rat.cast_intCast]
        linear_combination (r : K) * one
      · cases h
    · cases h
  · cases h

theorem dropComplements?_spec (laws : R.CollectionLaws) {groups rest : List TermGroup}
    {constant total : Option Numeral} (hg : ∀ g ∈ groups, R.GroupDefined g)
    (hc : ∀ n ∈ constant, n.isExact = true)
    (h : dropComplements? groups constant = some (rest, total)) :
    (∀ g ∈ rest, R.GroupDefined g) ∧ (∀ n ∈ total, n.isExact = true) ∧
      (rest.map R.groupVal).sum + (total.getD .zero).val K =
        (groups.map R.groupVal).sum + (constant.getD .zero).val K := by
  obtain ⟨i, j, different, found⟩ := exists_of_firstPair? h
  split at found
  · rename_i a b first second
    obtain ⟨c, complement, same⟩ := Option.map_eq_some_iff.mp found
    simp only [Prod.mk.injEq] at same
    obtain ⟨rfl, rfl⟩ := same
    have moved := eraseBoth_perm different first second
    have ha := hg a (List.mem_of_getElem? first)
    have hb := hg b (List.mem_of_getElem? second)
    obtain ⟨exactly, sum⟩ := complement?_spec laws ha hb complement
    obtain ⟨r, rfl⟩ := Numeral.exists_exact exactly
    have before : (constant.getD .zero).isExact = true := by
      cases constant with
      | none => rfl
      | some n => exact hc n rfl
    obtain ⟨s, constantEq⟩ := Numeral.exists_exact before
    refine ⟨fun g member => hg g (moved.mem_iff.mp (by simp [member])), ?_, ?_⟩
    · rintro n ⟨⟩
      simp [constantEq]
    · rw [← (moved.map R.groupVal).sum_eq]
      simp only [List.map_cons, List.sum_cons, Option.getD_some, constantEq, Numeral.add_exact,
        Numeral.val_exact, Rat.cast_add] at sum ⊢
      linear_combination -sum
  · cases found

omit [CharZero K] in
/-- The two ways round that an identity `f² + s * g² = 1` is used. -/
theorem convertSquare?_cases {f g : NamedFunction} {r n : Rat} {c m : Numeral}
    (h : convertSquare? f (.exact r) (.exact n) = some (g, c, m)) :
    ∃ s : Int, c = .exact (-s * r) ∧
      (f.complementSign? g = some s ∧ m = .exact (n + r) ∨
        g.complementSign? f = some s ∧ s * s = 1 ∧ m = .exact (n + s * r)) := by
  unfold convertSquare? at h
  split at h <;> simp only [Option.ite_none_right_eq_some, Option.some.injEq, Prod.mk.injEq,
    reduceCtorEq] at h <;> obtain ⟨-, rfl, rfl, rfl⟩ := h
  case h_1 | h_2 | h_7 => exact ⟨-1, by simp, .inr ⟨rfl, rfl, by simp [sub_eq_add_neg]⟩⟩
  case h_3 | h_4 | h_8 => exact ⟨-1, by simp, .inl ⟨rfl, rfl⟩⟩
  case h_5 => exact ⟨1, by simp, .inl ⟨rfl, rfl⟩⟩
  case h_6 => exact ⟨1, by simp, .inr ⟨rfl, rfl, by simp⟩⟩

/-- Under its identity a square beside a constant is another square beside another constant. -/
theorem convertSquare?_spec (laws : R.CollectionLaws) {f g : NamedFunction} {r n : Rat}
    {c m : Numeral} {x v : K} (h : convertSquare? f (.exact r) (.exact n) = some (g, c, m))
    (hv : R.call f [x] = some v) :
    c.isExact ∧ m.isExact ∧ ∃ w, R.call g [x] = some w ∧
      c.val K * w ^ 2 + m.val K = r * v ^ 2 + n := by
  obtain ⟨s, rfl, ⟨sign, rfl⟩ | ⟨sign, unit, rfl⟩⟩ := convertSquare?_cases h
  · have other := (laws.domain x sign).mp (by simp [hv])
    obtain ⟨w, hw⟩ := Option.isSome_iff_exists.mp other
    have one := laws.squares sign hv hw
    refine ⟨rfl, rfl, w, hw, ?_⟩
    simp only [Numeral.val_exact, Rat.cast_mul, Rat.cast_neg, Rat.cast_intCast, Rat.cast_add]
    linear_combination -(r : K) * one
  · have other := (laws.domain x sign).mpr (by simp [hv])
    obtain ⟨w, hw⟩ := Option.isSome_iff_exists.mp other
    have one := laws.squares sign hw hv
    have square : (s : K) * s = 1 := by exact_mod_cast unit
    refine ⟨rfl, rfl, w, hw, ?_⟩
    simp only [Numeral.val_exact, Rat.cast_mul, Rat.cast_neg, Rat.cast_intCast, Rat.cast_add]
    linear_combination -(s : K) * r * one + r * v ^ 2 * square

theorem convertSquares?_spec (laws : R.CollectionLaws) {groups rest : List TermGroup} {n : Rat}
    {m : Numeral} (hg : ∀ g ∈ groups, R.GroupDefined g)
    (h : convertSquares? (.exact n) groups = some (rest, m)) :
    (∀ g ∈ rest, R.GroupDefined g) ∧ m.isExact ∧
      (rest.map R.groupVal).sum + m.val K = (groups.map R.groupVal).sum + n := by
  induction groups generalizing rest with
  | nil => cases h
  | cons g gs ih =>
    obtain ⟨first, others⟩ := List.forall_mem_cons.mp hg
    obtain ⟨r, coefficient⟩ := Numeral.exists_exact first.coefficient
    unfold convertSquares? at h
    dsimp only at h
    split at h
    · rename_i _ group remaining found
      obtain ⟨rfl, rfl⟩ := Prod.mk.inj (Option.some.inj h)
      obtain ⟨⟨f, u⟩, square, converted⟩ := Option.bind_eq_some_iff.mp found
      obtain ⟨⟨k, c, _⟩, conversion, same⟩ := Option.map_eq_some_iff.mp converted
      obtain ⟨rfl, rfl⟩ := Prod.mk.inj same
      have rest := first.rest
      rw [Expr.eq_of_callOfSquare? square, callSquared_spec, Option.isSome_iff_exists] at rest
      obtain ⟨hu, v, hv⟩ := rest
      rw [coefficient] at conversion
      obtain ⟨exactly, remains, w, hw, value⟩ := convertSquare?_spec laws conversion hv
      refine ⟨List.forall_mem_cons.mpr ⟨⟨exactly, ?_, fun _ none => nomatch none⟩, others⟩,
        remains, ?_⟩
      · exact callSquared_spec.mpr ⟨hu, by simp [hw]⟩
      · simp only [List.map_cons, List.sum_cons, groupVal, val_callSquared hw, coefficient,
          Expr.eq_of_callOfSquare? square, val_callSquared hv, Numeral.val_exact]
        linear_combination value
    · obtain ⟨⟨converted, remaining⟩, found, same⟩ := Option.map_eq_some_iff.mp h
      obtain ⟨rfl, rfl⟩ := Prod.mk.inj same
      obtain ⟨defined, exactly, value⟩ := ih others found
      refine ⟨List.forall_mem_cons.mpr ⟨first, defined⟩, exactly, ?_⟩
      rw [List.map_cons, List.sum_cons, List.map_cons, List.sum_cons]
      linear_combination value

theorem useSquareIdentity?_spec (laws : R.CollectionLaws) {groups rest : List TermGroup}
    {constant total : Option Numeral} (hg : ∀ g ∈ groups, R.GroupDefined g)
    (hc : ∀ n ∈ constant, n.isExact = true)
    (h : useSquareIdentity? groups constant = some (rest, total)) :
    (∀ g ∈ rest, R.GroupDefined g) ∧ (∀ n ∈ total, n.isExact = true) ∧
      (rest.map R.groupVal).sum + (total.getD .zero).val K =
        (groups.map R.groupVal).sum + (constant.getD .zero).val K := by
  unfold useSquareIdentity? at h
  split at h
  · rename_i found
    cases h
    exact dropComplements?_spec laws hg hc found
  · split at h
    · rename_i n _
      obtain ⟨r, rfl⟩ := Numeral.exists_exact (hc n rfl)
      simp only [Numeral.isExact_exact, ↓reduceIte] at h
      obtain ⟨⟨converted, remaining⟩, found, same⟩ := Option.map_eq_some_iff.mp h
      obtain ⟨rfl, rfl⟩ := Prod.mk.inj same
      obtain ⟨defined, exactly, value⟩ := convertSquares?_spec laws hg found
      refine ⟨defined, ?_, value⟩
      rintro m ⟨⟩
      exact exactly
    · cases h

/-! ## Constants of sums -/

omit [Field K] [CharZero K] in
theorem isSome_numeral?_ofRat (r : Rat) : (Expr.ofRat r).numeral?.isSome := by
  unfold Expr.ofRat
  split
  · rfl
  · have den : (r.den : Rat) ≠ 0 := Nat.cast_ne_zero.mpr r.den_nz
    simp [Expr.numeral?, Expr.div, Expr.rational?, Expr.ofInt, Numeral.ofInt, den]

omit [Field K] [CharZero K] in
theorem isSome_numeral?_addedConstant {cs : List Expr} (h : ∀ c ∈ cs, c.numeral?.isSome) :
    ∀ c ∈ addedConstant cs, c.numeral?.isSome := by
  match cs with
  | [] => exact fun _ none => nomatch none
  | [c] =>
    rintro _ ⟨⟩
    exact h c List.mem_cons_self
  | c :: d :: cs =>
    rintro _ ⟨⟩
    unfold Expr.ofNumeral
    split
    · exact isSome_numeral?_ofRat _
    · rfl

/-- The constants of a sum are numerals, or one constant of any kind. -/
theorem addedConstant_spec {cs : List Expr} (h : ∀ c ∈ cs, R.Defined c)
    (numerals : cs.length ≤ 1 ∨ ∀ c ∈ cs, c.numeral?.isSome) :
    (∀ c ∈ addedConstant cs, R.Defined c) ∧
      ((addedConstant cs).toList.map R.val).sum = (cs.map R.val).sum := by
  have fold (acc : Rat) (ys : List Expr) (hy : ∀ y ∈ ys, R.Defined y)
      (some : ∀ y ∈ ys, y.numeral?.isSome) :
      ∃ r, (ys.filterMap Expr.numeral?).foldl Numeral.add (.exact acc) = .exact r ∧
        acc + (ys.map R.val).sum = r := by
    induction ys generalizing acc with
    | nil => exact ⟨acc, rfl, by simp⟩
    | cons y ys ih =>
      obtain ⟨first, rest⟩ := List.forall_mem_cons.mp hy
      obtain ⟨here, others⟩ := List.forall_mem_cons.mp some
      obtain ⟨x, found⟩ := Option.isSome_iff_exists.mp here
      obtain ⟨s, rfl, value⟩ := numeral?_spec first found
      obtain ⟨r, folded, total⟩ := ih (acc + s) rest others
      refine ⟨r, by simpa [List.filterMap_cons, found] using folded, ?_⟩
      rw [List.map_cons, List.sum_cons, value, ← total, Rat.cast_add, add_assoc]
  match cs with
  | [] => simp [addedConstant]
  | [c] => simpa [addedConstant] using h
  | c :: d :: cs =>
    have all : ∀ c' ∈ c :: d :: cs, c'.numeral?.isSome :=
      numerals.resolve_left (by simp)
    obtain ⟨r, folded, value⟩ := fold 0 _ h all
    have total : addedConstant (c :: d :: cs) = some (.ofRat r) := by
      simp only [addedConstant, Option.some.injEq]
      exact congrArg Expr.ofNumeral folded
    rw [total]
    constructor
    · rintro e ⟨⟩
      exact defined_ofRat r
    · simpa using value.symm

/-- What is left of a constant once an identity is used; nothing for zero. -/
theorem remainingConstant_spec {total : Option Numeral} (h : ∀ n ∈ total, n.isExact = true) :
    (∀ c ∈ (total.filter fun n => !n.isZero).map Expr.ofNumeral, R.Defined c) ∧
      ((((total.filter fun n => !n.isZero).map Expr.ofNumeral).toList).map R.val).sum =
        (total.getD .zero).val K := by
  cases total with
  | none => simp
  | some n =>
    obtain ⟨r, rfl⟩ := Numeral.exists_exact (h n rfl)
    by_cases zero : r = 0
    · simp [zero, Option.filter, Numeral.isZero]
    · simp [zero, Option.filter, Numeral.isZero, Expr.ofNumeral]

/-! ## Sums -/

theorem collectAddends_keeps (laws : R.CollectionLaws) (folded : Bool) {xs : List Expr}
    (kinds : (xs.filter Expr.isAddedConstant).length ≤ 1 ∨ ¬xs.any Expr.isComplex) :
    R.Keeps (.node .add xs) (collectAddends folded xs).expr := by
  intro h
  rw [defined_node_add] at h
  have numeral : ¬xs.any Expr.isComplex → ∀ c ∈ xs.filter Expr.isAddedConstant,
      c.numeral?.isSome := by
    intro real c member
    obtain ⟨inside, constant⟩ := List.mem_filter.mp member
    have notComplex : c.isComplex = false := by
      by_contra complex
      exact real (List.any_eq_true.mpr ⟨c, inside, by simpa using complex⟩)
    cases c with
    | complex z => cases notComplex
    | number _ | ident _ | call _ _ | node _ _ =>
      simpa [Expr.isAddedConstant, Expr.complex?] using constant
  obtain ⟨constantDefined, constantValue⟩ := addedConstant_spec
    (defined_filter (p := Expr.isAddedConstant) h) (kinds.imp_right numeral)
  obtain ⟨groupsDefined, groupsValue⟩ := gather_spec
    (defined_filter (p := fun x => !x.isAddedConstant) h)
  have total : ((TermGroup.gather (xs.filter fun x => !x.isAddedConstant)).map R.groupVal).sum +
      ((addedConstant (xs.filter Expr.isAddedConstant)).toList.map R.val).sum =
      R.val (.node .add xs) := by
    rw [groupsValue, constantValue, val_node_add, add_comm, sum_filter_add_sum_filter_not]
  have build {groups : List TermGroup} {constant : Option Expr}
      (hg : ∀ g ∈ groups, R.GroupDefined g) (hc : ∀ c ∈ constant, R.Defined c)
      (same : (groups.map R.groupVal).sum + (constant.toList.map R.val).sum =
        R.val (.node .add xs)) :
      R.Defined (.sum ((groups.map TermGroup.toExpr).filter (fun e => !e.isZero) ++
          constant.toList)) ∧
        R.val (.sum ((groups.map TermGroup.toExpr).filter (fun e => !e.isZero) ++
          constant.toList)) = R.val (.node .add xs) := by
    obtain ⟨defined, value⟩ := groupExprs_spec hg
    rw [defined_sum, val_sum, List.map_append, List.sum_append, value, same]
    refine ⟨fun e member => ?_, rfl⟩
    rcases List.mem_append.mp member with left | right
    · exact defined e left
    · exact hc e (by simpa using right)
  unfold collectAddends
  rw [List.partition_eq_filter_filter]
  dsimp only [Function.comp_apply]
  split
  · rename_i undefined
    obtain ⟨-, nan⟩ := undefined
    cases found : addedConstant (xs.filter Expr.isAddedConstant) with
    | none => simp [found] at nan
    | some c =>
      rw [found] at nan
      simp [isNaN_of_defined (constantDefined c found)] at nan
  · split
    · rename_i groups value identity
      split at identity
      · cases identity
      · rename_i real
        have numerals := isSome_numeral?_addedConstant (numeral real)
        have exactly : ∀ n ∈ (addedConstant (xs.filter Expr.isAddedConstant)).bind Expr.numeral?,
            n.isExact = true := by
          intro n member
          obtain ⟨c, found, number⟩ := Option.bind_eq_some_iff.mp member
          obtain ⟨r, rfl, -⟩ := numeral?_spec (constantDefined c found) number
          rfl
        have constant : (((addedConstant (xs.filter Expr.isAddedConstant)).bind
            Expr.numeral?).getD .zero).val K =
            ((addedConstant (xs.filter Expr.isAddedConstant)).toList.map R.val).sum := by
          cases found : addedConstant (xs.filter Expr.isAddedConstant) with
          | none => simp
          | some c =>
            obtain ⟨n, number⟩ := Option.isSome_iff_exists.mp (numerals c found)
            obtain ⟨r, rfl, value⟩ := numeral?_spec (constantDefined c found) number
            simp [number, value]
        obtain ⟨defined, remains, same⟩ := useSquareIdentity?_spec laws groupsDefined exactly identity
        obtain ⟨leftDefined, leftValue⟩ := remainingConstant_spec (R := R) remains
        exact build defined leftDefined (by rw [leftValue, same, constant, total])
    · exact build groupsDefined constantDefined total

theorem addComplexConstants_keeps {xs : List Expr} (complex : xs.any Expr.isComplex) :
    R.Keeps (.node .add xs) (.node .add (Expr.addComplexConstants xs)) := by
  intro h
  rw [defined_node_add] at h
  obtain ⟨e, member, isComplex⟩ := List.any_eq_true.mp complex
  have unit := unit_of_isComplex (h e member) isComplex
  have fold (acc : ComplexNumeral) (ys : List Expr) (ha : acc.IsExact)
      (hy : ∀ y ∈ ys, R.Defined y) :
      ((ys.filterMap Expr.complex?).foldl ComplexNumeral.add acc).IsExact ∧
        ((ys.filterMap Expr.complex?).foldl ComplexNumeral.add acc).val R.imaginary +
            ((ys.filter fun x => x.complex?.isNone).map R.val).sum =
          acc.val R.imaginary + (ys.map R.val).sum := by
    induction ys generalizing acc with
    | nil => exact ⟨ha, rfl⟩
    | cons y ys ih =>
      obtain ⟨first, rest⟩ := List.forall_mem_cons.mp hy
      cases found : y.complex? with
      | none =>
        obtain ⟨exactly, value⟩ := ih acc ha rest
        simp only [List.filterMap_cons, List.filter_cons, found, Option.isNone_none, ↓reduceIte,
          List.map_cons, List.sum_cons]
        exact ⟨exactly, by linear_combination value⟩
      | some z =>
        obtain ⟨hz, here⟩ := complex?_spec first found
        obtain ⟨next, sum⟩ := ComplexNumeral.add_spec (i := R.imaginary) ha hz
        obtain ⟨exactly, value⟩ := ih (acc.add z) next rest
        simp only [List.filterMap_cons, List.filter_cons, found, Option.isNone_some,
          Bool.false_eq_true, ↓reduceIte, List.foldl_cons, List.map_cons, List.sum_cons]
        refine ⟨exactly, ?_⟩
        rw [value, sum, here, add_assoc]
  obtain ⟨exactly, value⟩ := fold (.ofReal .zero) xs ⟨rfl, rfl⟩ h
  obtain ⟨defined, total⟩ := ofComplex_spec unit exactly
  rw [Expr.addComplexConstants, defined_node_add, val_node_add, val_node_add, List.map_append,
    List.sum_append]
  constructor
  · intro x inside
    rcases List.mem_append.mp inside with left | right
    · exact defined_filter h x left
    · rw [List.mem_singleton.mp right]
      exact defined
  · have zero : (ComplexNumeral.ofReal .zero).val R.imaginary = 0 := by
      simp [ComplexNumeral.ofReal, ComplexNumeral.val]
    rw [List.map_singleton, List.sum_singleton, total]
    linear_combination value + zero

omit [Field K] [CharZero K] in
/-- Once complex constants are added up there is one constant at most. -/
theorem length_constants_addComplexConstants_le (xs : List Expr) :
    ((Expr.addComplexConstants xs).filter Expr.isAddedConstant).length ≤ 1 := by
  have none : (xs.filter fun x => x.complex?.isNone).filter Expr.isAddedConstant = [] := by
    rw [List.filter_filter, List.filter_eq_nil_iff]
    intro x _
    cases found : x.complex? <;> simp [Expr.isAddedConstant, found]
  rw [Expr.addComplexConstants, List.filter_append, none, List.nil_append]
  exact List.length_filter_le _ _

theorem collectSum_keeps (laws : R.CollectionLaws) (xs : List Expr) :
    R.Keeps (.node .add xs) (collectSum xs).expr := by
  intro h
  unfold collectSum
  split
  · rename_i undefined
    obtain ⟨x, member, nan⟩ := List.any_eq_true.mp undefined
    rw [isNaN_of_defined ((defined_node_add xs).mp h x member)] at nan
    cases nan
  · split
    · rename_i complex
      exact ((addComplexConstants_keeps complex).trans (collectAddends_keeps laws _
        (.inl (length_constants_addComplexConstants_le xs)))) h
    · rename_i real
      exact collectAddends_keeps laws false (.inr real) h

end Groups

end Reading

end SymbolicAlgebra
