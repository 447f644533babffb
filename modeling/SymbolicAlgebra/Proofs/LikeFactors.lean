import SymbolicAlgebra.Proofs.LikeTerms

/-! Multiplying numerals, adding the exponents of equal bases and reducing pairs of calls keeps the
value of a product. -/
namespace SymbolicAlgebra

theorem length_eraseBoth {α : Type*} {xs : List α} {i j : Nat} {a b : α} (different : i ≠ j)
    (ha : xs[i]? = some a) (hb : xs[j]? = some b) : min i j ≤ (eraseBoth xs i j).length := by
  obtain ⟨hi, -⟩ := List.getElem?_eq_some_iff.mp ha
  obtain ⟨hj, -⟩ := List.getElem?_eq_some_iff.mp hb
  have moved := (eraseBoth_perm different ha hb).length_eq
  simp only [List.length_cons] at moved
  omega

namespace Reading

variable {K : Type*} [Field K] {R : Reading K}

/-! ## Sums of exponents -/

variable [CharZero K]

theorem rationals_spec {exponents : List Expr} {values : List Rat}
    (h : exponents.mapM Expr.rational? = some values) :
    (exponents.map R.val).sum = ((values.foldl (· + ·) 0 : Rat) : K) := by
  rw [← List.sum_eq_foldl]
  induction exponents generalizing values with
  | nil =>
    cases h
    simp
  | cons e es ih =>
    simp only [List.mapM_cons, Option.bind_eq_bind, Option.bind_eq_some_iff, Option.pure_def,
      Option.some.injEq] at h
    obtain ⟨r, rational, rs, others, rfl⟩ := h
    rw [List.map_cons, List.sum_cons, ih others, (rational?_spec rational).2, List.sum_cons,
      Rat.cast_add]

theorem exponentSum_spec {exponents : List Expr} (h : ∀ e ∈ exponents, R.Defined e) :
    R.Defined (exponentSum exponents) ∧
      R.val (exponentSum exponents) = (exponents.map R.val).sum := by
  unfold exponentSum
  split
  · rename_i values rational
    exact ⟨defined_ofRat _, by rw [val_ofRat, rationals_spec rational]⟩
  · exact ⟨(defined_sum _).mpr h, val_sum _⟩

/-! ## Groups of factors with one base -/

noncomputable def factorGroupVal (R : Reading K) (g : FactorGroup) : K :=
  (g.exponents.map fun e => R.val (.pow g.base e)).prod

structure FactorGroupDefined (R : Reading K) (g : FactorGroup) : Prop where
  base : R.Defined g.base
  exponents : ∀ e ∈ g.exponents, R.Defined (.pow g.base e)
  asWritten : ∀ factor ∈ g.asWritten, R.Defined factor ∧ R.val factor = R.factorGroupVal g

/-- Powers of one base multiply to the power to the sum of their exponents. -/
theorem powers_of_base {base : Expr} {exponents : List Expr} (hb : R.Defined base)
    (h : ∀ e ∈ exponents, R.Defined (.pow base e)) :
    R.Defined (.pow base (exponentSum exponents)) ∧
      R.val (.pow base (exponentSum exponents)) =
        (exponents.map fun e => R.val (.pow base e)).prod := by
  obtain ⟨defined, value⟩ := exponentSum_spec fun e member => ((defined_pow _ _).mp (h e member)).2.1
  have total : ∃ n : ℤ, (n : K) = (exponents.map R.val).sum ∧ (R.val base = 0 → 0 ≤ n) ∧
      R.val base ^ n = (exponents.map fun e => R.val (.pow base e)).prod := by
    clear defined value
    induction exponents with
    | nil => exact ⟨0, by simp⟩
    | cons e es ih =>
      obtain ⟨first, rest⟩ := List.forall_mem_cons.mp h
      obtain ⟨-, -, m, exponent, bound⟩ := (defined_pow _ _).mp first
      obtain ⟨n, sum, nonneg, product⟩ := ih rest
      refine ⟨m + n, by simp [sum, exponent], fun zero => add_nonneg (bound zero) (nonneg zero), ?_⟩
      rw [zpow_add_of_nonneg bound nonneg, product, List.map_cons, List.prod_cons, val_pow,
        ← exponent, power_intCast]
  obtain ⟨n, sum, nonneg, product⟩ := total
  refine ⟨(defined_pow _ _).mpr ⟨hb, defined, n, sum.trans value.symm, nonneg⟩, ?_⟩
  rw [val_pow, value, ← sum, power_intCast, product]

theorem factorGroupExpr_spec {g : FactorGroup} (h : R.FactorGroupDefined g) :
    (∀ e ∈ g.toExpr?, R.Defined e) ∧ (g.toExpr?.toList.map R.val).prod = R.factorGroupVal g := by
  unfold FactorGroup.toExpr?
  split
  · rename_i factor written
    obtain ⟨defined, value⟩ := h.asWritten factor written
    refine ⟨?_, by simpa using value⟩
    rintro e ⟨⟩
    exact defined
  · obtain ⟨defined, value⟩ := powers_of_base h.base h.exponents
    have exponent := ((defined_pow _ _).mp defined).2.1
    rw [factorGroupVal, ← value, val_pow]
    unfold powerFactor
    split
    · rename_i zero
      exact ⟨fun _ none => (nomatch none), by simp [val_of_isZero exponent zero]⟩
    · split
      · rename_i one
        refine ⟨?_, by simp [val_of_isOne exponent one]⟩
        rintro e ⟨⟩
        exact h.base
      · refine ⟨?_, by simp⟩
        rintro e ⟨⟩
        exact defined

theorem insertFactor_spec {factor : Expr} {groups : List FactorGroup} (hf : R.Defined factor)
    (hg : ∀ g ∈ groups, R.FactorGroupDefined g) :
    (∀ g ∈ FactorGroup.insert factor factor.asPower groups, R.FactorGroupDefined g) ∧
      ((FactorGroup.insert factor factor.asPower groups).map R.factorGroupVal).prod =
        (groups.map R.factorGroupVal).prod * R.val factor := by
  obtain ⟨defined, value⟩ := asPower_keeps factor hf
  have base := ((defined_pow _ _).mp defined).1
  induction groups with
  | nil =>
    refine ⟨?_, by simpa [FactorGroup.insert, factorGroupVal] using value⟩
    intro g member
    rw [FactorGroup.insert, List.mem_singleton] at member
    subst member
    refine ⟨base, by simpa using defined, ?_⟩
    rintro f ⟨⟩
    exact ⟨hf, by simpa [factorGroupVal] using value.symm⟩
  | cons g gs ih =>
    obtain ⟨first, others⟩ := List.forall_mem_cons.mp hg
    unfold FactorGroup.insert
    split
    · rename_i same
      constructor
      · refine List.forall_mem_cons.mpr ⟨⟨first.base, ?_, fun _ none => nomatch none⟩, others⟩
        intro e member
        rcases List.mem_append.mp member with old | new
        · exact first.exponents e old
        · rw [List.mem_singleton.mp new]
          exact same ▸ defined
      · have here : R.val (.pow g.base factor.asPower.2) = R.val factor := by rw [same, value]
        simp only [List.map_cons, List.prod_cons, factorGroupVal, List.map_append, List.prod_append,
          List.map_nil, List.prod_nil, here]
        ring
    · obtain ⟨all, total⟩ := ih others
      refine ⟨List.forall_mem_cons.mpr ⟨first, all⟩, ?_⟩
      rw [List.map_cons, List.prod_cons, total, List.map_cons, List.prod_cons, mul_assoc]

theorem gatherFactors_spec {factors : List Expr} (h : ∀ f ∈ factors, R.Defined f) :
    (∀ g ∈ FactorGroup.gather factors, R.FactorGroupDefined g) ∧
      ((FactorGroup.gather factors).map R.factorGroupVal).prod = (factors.map R.val).prod := by
  have fold (groups : List FactorGroup) (hg : ∀ g ∈ groups, R.FactorGroupDefined g) :
      (∀ g ∈ factors.foldl (fun groups f => FactorGroup.insert f f.asPower groups) groups,
          R.FactorGroupDefined g) ∧
        ((factors.foldl (fun groups f => FactorGroup.insert f f.asPower groups) groups).map
          R.factorGroupVal).prod = (groups.map R.factorGroupVal).prod * (factors.map R.val).prod := by
    induction factors generalizing groups with
    | nil => exact ⟨hg, by simp⟩
    | cons f fs ih =>
      obtain ⟨first, rest⟩ := List.forall_mem_cons.mp h
      obtain ⟨defined, value⟩ := insertFactor_spec first hg
      obtain ⟨result, total⟩ := ih rest _ defined
      refine ⟨result, ?_⟩
      rw [List.foldl_cons, total, value, List.map_cons, List.prod_cons, mul_assoc]
  simpa [FactorGroup.gather] using fold [] fun _ member => nomatch member

theorem factorGroupExprs_spec {groups : List FactorGroup}
    (h : ∀ g ∈ groups, R.FactorGroupDefined g) :
    (∀ e ∈ groups.filterMap FactorGroup.toExpr?, R.Defined e) ∧
      ((groups.filterMap FactorGroup.toExpr?).map R.val).prod =
        (groups.map R.factorGroupVal).prod := by
  induction groups with
  | nil => simp
  | cons g gs ih =>
    obtain ⟨first, others⟩ := List.forall_mem_cons.mp h
    obtain ⟨defined, value⟩ := ih others
    obtain ⟨here, own⟩ := factorGroupExpr_spec first
    rw [List.map_cons, List.prod_cons, ← own, ← value]
    cases found : g.toExpr? with
    | none => simpa [List.filterMap_cons, found] using defined
    | some e =>
      simp only [List.filterMap_cons, found, List.map_cons, List.prod_cons, Option.toList_some,
        List.map_nil, List.prod_nil, mul_one, and_true]
      exact List.forall_mem_cons.mpr ⟨here e found, defined⟩

/-! ## Pairs of calls -/

omit [CharZero K] in
theorem callProduct?_spec (laws : R.CollectionLaws) {a b : Expr} {result : Option Expr}
    (ha : R.Defined a) (hb : R.Defined b) (h : a.callProduct? b = some result) :
    (∀ e ∈ result, R.Defined e) ∧ (result.toList.map R.val).prod = R.val a * R.val b := by
  unfold Expr.callProduct? at h
  split at h
  · rename_i f u g v
    simp only [Option.ite_none_right_eq_some] at h
    obtain ⟨rfl, h⟩ := h
    obtain ⟨product, found, rfl⟩ := Option.map_eq_some_iff.mp h
    obtain ⟨hu, left⟩ := (defined_call f [u]).mp ha
    obtain ⟨x, hx⟩ := Option.isSome_iff_exists.mp left
    obtain ⟨y, hy⟩ := Option.isSome_iff_exists.mp ((defined_call g [u]).mp hb).2
    rw [val_call, val_call, hx, hy]
    simp only [List.map_cons, List.map_nil] at hx hy
    cases product with
    | none => exact ⟨fun _ none => (nomatch none), by simp [laws.cancel found hx hy]⟩
    | some k =>
      have reduced := laws.reduce found hx hy
      constructor
      · rintro e ⟨⟩
        exact (defined_call _ _).mpr ⟨hu, by simp [reduced]⟩
      · simp [Expr.apply, reduced]
  · cases h

omit [CharZero K] in
theorem reduceCalls?_spec (laws : R.CollectionLaws) {factors reduced : List Expr}
    (hf : ∀ f ∈ factors, R.Defined f) (h : reduceCalls? factors = some reduced) :
    (∀ f ∈ reduced, R.Defined f) ∧ (reduced.map R.val).prod = (factors.map R.val).prod := by
  obtain ⟨i, j, different, found⟩ := exists_of_firstPair? h
  split at found
  · rename_i a b first second
    obtain ⟨result, product, rfl⟩ := Option.map_eq_some_iff.mp found
    have moved := eraseBoth_perm different first second
    obtain ⟨defined, value⟩ := callProduct?_spec laws (hf a (List.mem_of_getElem? first))
      (hf b (List.mem_of_getElem? second)) product
    have left : ∀ f ∈ eraseBoth factors i j, R.Defined f := fun f member =>
      hf f (moved.mem_iff.mp (by simp [member]))
    rw [← (moved.map R.val).prod_eq]
    simp only [List.map_cons, List.prod_cons]
    rw [← mul_assoc, ← value]
    cases result with
    | none => exact ⟨left, by simp⟩
    | some e =>
      have inserted := List.perm_insertIdx e (eraseBoth factors i j)
        (length_eraseBoth different first second)
      constructor
      · intro f member
        rcases List.mem_cons.mp (inserted.mem_iff.mp member) with rfl | other
        · exact defined f rfl
        · exact left f other
      · rw [(inserted.map R.val).prod_eq]
        simp
  · cases found

omit [CharZero K] in
theorem reduceCalls_spec (laws : R.CollectionLaws) {factors : List Expr}
    (hf : ∀ f ∈ factors, R.Defined f) :
    (∀ f ∈ (reduceCalls? factors).getD factors, R.Defined f) ∧
      (((reduceCalls? factors).getD factors).map R.val).prod = (factors.map R.val).prod := by
  cases found : reduceCalls? factors with
  | none => exact ⟨hf, rfl⟩
  | some reduced => exact reduceCalls?_spec laws hf found

/-! ## Products -/

theorem collectFactors_keeps (laws : R.CollectionLaws) (folded : Bool) (xs : List Expr) :
    R.Keeps (.node .multiply xs) (collectFactors folded xs).expr := by
  intro h
  rw [defined_node_multiply] at h
  obtain ⟨r, coefficient, numerals⟩ := numeralProduct_spec
    (defined_filter (p := Expr.isNumber) h)
  obtain ⟨groups, groupsValue⟩ := gatherFactors_spec
    (defined_filter (p := fun x => !x.isNumber) h)
  obtain ⟨powers, powersValue⟩ := factorGroupExprs_spec groups
  have total : (r : K) * (((FactorGroup.gather (xs.filter fun x => !x.isNumber)).filterMap
      FactorGroup.toExpr?).map R.val).prod = R.val (.node .multiply xs) := by
    rw [powersValue, groupsValue, ← numerals, List.filter_filter]
    simp only [Bool.and_self]
    rw [prod_filter_mul_prod_filter_not, val_node_multiply]
  have build (out : List Expr) (defined : ∀ x ∈ out, R.Defined x)
      (value : (r : K) * (out.map R.val).prod = R.val (.node .multiply xs)) :
      R.Defined (if r = 1 then .product out else .product (.number (.exact r) :: out)) ∧
        R.val (if r = 1 then .product out else .product (.number (.exact r) :: out)) =
          R.val (.node .multiply xs) := by
    split
    · rename_i one
      exact ⟨(defined_product _).mpr defined, by rw [← value, val_product, one]; simp⟩
    · refine ⟨(defined_product _).mpr (List.forall_mem_cons.mpr ⟨rfl, defined⟩), ?_⟩
      rw [← value, val_product, List.map_cons, List.prod_cons, val_exact]
  unfold collectFactors
  rw [List.partition_eq_filter_filter]
  simp only [Function.comp_def, coefficient, Numeral.isNaN_exact,
    Bool.false_eq_true, ↓reduceIte, Numeral.isZero_exact, Numeral.isOne_exact]
  split
  · rename_i zero
    exact ⟨defined_zero, by rw [← total, zero]; simp [Step.new]⟩
  · obtain ⟨reduced, reducedValue⟩ := reduceCalls_spec laws powers
    have result := build _ reduced (by rw [reducedValue, total])
    split <;> simpa [*] using result

/-- Numerals and complex numerals multiply to one constant. -/
theorem multiplyComplexConstants_keeps (law : R.LawfulUnit) {xs : List Expr}
    (complex : xs.any Expr.isComplex) :
    R.Keeps (.node .multiply xs) (.node .multiply (Expr.multiplyComplexConstants xs)) := by
  intro h
  rw [defined_node_multiply] at h
  obtain ⟨e, member, isComplex⟩ := List.any_eq_true.mp complex
  have unit := unit_of_isComplex (h e member) isComplex
  have fold (acc : ComplexNumeral) (ys : List Expr) (ha : acc.IsExact)
      (hy : ∀ y ∈ ys, R.Defined y) :
      (((ys.filter Expr.isNumeralFactor).filterMap Expr.complex?).foldl
          ComplexNumeral.mul acc).IsExact ∧
        (((ys.filter Expr.isNumeralFactor).filterMap Expr.complex?).foldl
            ComplexNumeral.mul acc).val R.imaginary =
          acc.val R.imaginary * ((ys.filter Expr.isNumeralFactor).map R.val).prod := by
    induction ys generalizing acc with
    | nil => exact ⟨ha, by simp⟩
    | cons y ys ih =>
      obtain ⟨first, rest⟩ := List.forall_mem_cons.mp hy
      by_cases constant : y.isNumeralFactor
      · obtain ⟨z, found⟩ : ∃ z, y.complex? = some z := by
          cases y with
          | number x => exact ⟨_, rfl⟩
          | complex z => exact ⟨_, rfl⟩
          | ident _ | call _ _ | node _ _ => cases constant
        obtain ⟨hz, here⟩ := complex?_spec first found
        obtain ⟨next, product⟩ := ComplexNumeral.mul_spec (law.square unit) ha hz
        obtain ⟨exactly, value⟩ := ih (acc.mul z) next rest
        simp only [List.filter_cons, constant, ↓reduceIte, List.filterMap_cons, found,
          List.foldl_cons, List.map_cons, List.prod_cons]
        exact ⟨exactly, by rw [value, product, here, mul_assoc]⟩
      · simpa only [List.filter_cons, constant, Bool.false_eq_true, ↓reduceIte] using
          ih acc ha rest
  obtain ⟨exactly, value⟩ := fold .one xs ⟨rfl, rfl⟩ h
  have one : ComplexNumeral.one.val R.imaginary = 1 := by
    simp [ComplexNumeral.one, ComplexNumeral.ofReal, ComplexNumeral.val]
  obtain ⟨r, s, total⟩ := ComplexNumeral.exists_exact exactly
  rw [total, one, one_mul, ComplexNumeral.val_mk] at value
  rw [Expr.multiplyComplexConstants, defined_node_multiply, val_node_multiply, val_node_multiply,
    total, ← prod_filter_mul_prod_filter_not Expr.isNumeralFactor xs, ← value, List.map_cons,
    List.prod_cons]
  dsimp only
  split
  · rename_i real
    have zero : s = 0 := by simpa [ComplexNumeral.isReal] using real
    exact ⟨List.forall_mem_cons.mpr ⟨rfl, defined_filter h⟩, by simp [zero]⟩
  · exact ⟨List.forall_mem_cons.mpr ⟨⟨unit, rfl, rfl⟩, defined_filter h⟩, rfl⟩

theorem collectProduct_keeps (law : R.LawfulUnit) (laws : R.CollectionLaws) (xs : List Expr) :
    R.Keeps (.node .multiply xs) (collectProduct xs).expr := by
  unfold collectProduct
  split
  · rename_i complex
    exact (multiplyComplexConstants_keeps law complex).trans (collectFactors_keeps laws _ _)
  · exact collectFactors_keeps laws false xs

end Reading

end SymbolicAlgebra
