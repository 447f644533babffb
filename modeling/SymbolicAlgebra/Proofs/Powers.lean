import SymbolicAlgebra.Product.Power
import SymbolicAlgebra.Proofs.CallLaws

/-! Working out powers keeps values: exponents are integers wherever a power has a value. -/
namespace SymbolicAlgebra

/-- An integer exponent is an exact numeral. -/
theorem Expr.eq_of_integerExponent {exponent : Expr} {n : Int}
    (h : exponent.number?.bind Numeral.integer? = some n) : exponent = .number (.exact n) := by
  obtain ⟨x, number, integer⟩ := Option.bind_eq_some_iff.mp h
  cases exponent with
  | number y =>
    cases number
    exact congrArg _ (Numeral.isExact_of_integer? integer)
  | complex _ | ident _ | call _ _ | node _ _ => cases number

theorem Expr.eq_of_wordExponent {exponent : Expr} {n : Int}
    (h : exponent.number?.bind Numeral.int64? = some n) : exponent = .number (.exact n) := by
  obtain ⟨x, number, word⟩ := Option.bind_eq_some_iff.mp h
  refine eq_of_integerExponent (Option.bind_eq_some_iff.mpr ⟨x, number, ?_⟩)
  exact (Option.filter_eq_some_iff.mp word).1

namespace Numeral

theorem power?_natCast {b : Rat} {n : Nat} {x : Numeral}
    (h : (exact b).power? (.exact n) = some x) : x = .exact (b ^ n) := by
  have negative : ¬((n : Int) < 0) := by omega
  simp only [power?, ratPower?, Rat.den_natCast, ↓reduceIte, Rat.num_natCast, intPower?, negative,
    false_and, Int.natAbs_natCast] at h
  split at h
  · cases h
  · exact (Option.some.inj h).symm

end Numeral

namespace Reading

variable {K : Type*} [Field K] [CharZero K] {R : Reading K}

/-- A power with an integer numeral as its exponent. -/
theorem defined_pow_exact (base : Expr) (n : Int) :
    R.Defined (.pow base (.number (.exact n))) ↔ R.Defined base ∧ (R.val base = 0 → 0 ≤ n) := by
  rw [defined_pow]
  constructor
  · rintro ⟨hb, -, m, same, bound⟩
    have : m = n := by
      rw [val_exact, Rat.cast_intCast] at same
      exact_mod_cast same
    exact ⟨hb, this ▸ bound⟩
  · rintro ⟨hb, bound⟩
    exact ⟨hb, rfl, n, by simp, bound⟩

theorem val_pow_exact (base : Expr) (n : Int) :
    R.val (.pow base (.number (.exact n))) = R.val base ^ n := by
  simp

/-! ## Constants -/

theorem simplifyNumeralPower_keeps {base value : Numeral} {exponent : Expr}
    (found : exponent.numeral? = some value) :
    R.Keeps (.pow (.number base) exponent) (simplifyNumeralPower base value exponent).expr := by
  intro h
  obtain ⟨hb, he, n, integer, bound⟩ := (defined_pow _ _).mp h
  obtain ⟨b, rfl⟩ := Numeral.exists_exact hb
  obtain ⟨r, rfl, same⟩ := numeral?_spec he found
  obtain rfl : r = n := by
    rw [same] at integer
    exact_mod_cast integer.symm
  have power : R.val (.pow (.number (.exact b)) exponent) = (b : K) ^ n := by
    rw [val_pow, ← integer, power_intCast, val_exact]
  rw [power]
  simp only [simplifyNumeralPower, Numeral.isExact_exact, Bool.not_true, Bool.or_self,
    Bool.false_eq_true, ↓reduceIte, Numeral.neg_exact]
  split
  · rename_i negative
    have below : n < 0 := by
      have : ((n : Rat) < 0) := by simpa using negative
      exact_mod_cast this
    have nonzero : b ≠ 0 := by
      rintro rfl
      have := bound (by simp)
      omega
    obtain ⟨k, rfl⟩ : ∃ k : Nat, n = -(k : ℤ) := ⟨n.natAbs, by omega⟩
    have opposite : (-((-(k : ℤ) : ℤ) : Rat)) = ((k : Nat) : Rat) := by push_cast; ring
    rw [opposite]
    split
    · rename_i x exactly
      obtain rfl := Numeral.power?_natCast exactly
      have raised : ((b ^ k : Rat) : K) ≠ 0 := by exact_mod_cast pow_ne_zero k nonzero
      refine ⟨(defined_div _ _).mpr ⟨defined_one, rfl, raised⟩, ?_⟩
      simp [Step.new, zpow_neg]
    · exact ⟨h, power⟩
  · rename_i nonnegative
    have above : 0 ≤ n := by
      by_contra negative
      apply nonnegative
      have : ((n : Rat) < 0) := by exact_mod_cast not_le.mp negative
      simpa using this
    obtain ⟨k, rfl⟩ := Int.eq_ofNat_of_zero_le above
    rw [Int.cast_natCast]
    split
    · rename_i x exactly
      obtain rfl := Numeral.power?_natCast exactly
      exact ⟨rfl, by simp [Step.new]⟩
    · exact ⟨h, power⟩

/-! ## Integer exponents -/

/-- A natural power goes to every factor of a product. -/
theorem distributed_spec {factors : List Expr} {n : Int} (positive : 0 < n)
    (h : ∀ f ∈ factors, R.Defined f) :
    (∀ p ∈ factors.map fun f => Expr.pow f (.number (.exact n)), R.Defined p) ∧
      ((factors.map fun f => Expr.pow f (.number (.exact n))).map R.val).prod =
        (factors.map R.val).prod ^ n := by
  induction factors with
  | nil => simp
  | cons f fs ih =>
    obtain ⟨first, rest⟩ := List.forall_mem_cons.mp h
    obtain ⟨defined, value⟩ := ih rest
    refine ⟨List.forall_mem_cons.mpr ⟨(defined_pow_exact f n).mpr ⟨first, fun _ => positive.le⟩,
      defined⟩, ?_⟩
    rw [List.map_cons, List.map_cons, List.prod_cons, value, val_pow_exact, List.map_cons,
      List.prod_cons, mul_zpow]

/-- Nested exponents multiply. -/
theorem nestedPower_spec {inner a e : Expr} {n : Int} (natural : 0 ≤ n)
    (h : R.Defined (.pow inner a)) (he : R.Defined e) (value : R.val e = n * R.val a) :
    R.Defined (.pow inner e) ∧ R.val (.pow inner e) = R.val (.pow inner a) ^ n := by
  obtain ⟨hi, ha, m, exponent, bound⟩ := (defined_pow _ _).mp h
  have product : ((m * n : ℤ) : K) = R.val e := by
    rw [value, ← exponent, Int.cast_mul, mul_comm]
  refine ⟨(defined_pow _ _).mpr ⟨hi, he, m * n, product, fun zero => ?_⟩, ?_⟩
  · exact mul_nonneg (bound zero) natural
  · rw [val_pow, val_pow, ← product, ← exponent, power_intCast, power_intCast, zpow_mul]

theorem simplifyIntegerPower_keeps (base : Expr) (n : Int) :
    R.Keeps (.pow base (.number (.exact n)))
      (simplifyIntegerPower base n (.number (.exact n))).expr := by
  intro h
  obtain ⟨hb, bound⟩ := (defined_pow_exact base n).mp h
  rw [val_pow_exact]
  unfold simplifyIntegerPower
  split
  · rename_i negative
    have nonzero : R.val base ≠ 0 := fun zero => by
      have := bound zero
      omega
    have opposite : R.Defined (if n = -1 then base else .pow base (.ofInt (-n))) ∧
        R.val (if n = -1 then base else .pow base (.ofInt (-n))) = (R.val base ^ n)⁻¹ := by
      split
      · rename_i minusOne
        exact ⟨hb, by simp [minusOne]⟩
      · refine ⟨(defined_pow_exact base (-n)).mpr ⟨hb, fun zero => absurd zero nonzero⟩, ?_⟩
        rw [← zpow_neg]
        exact val_pow_exact base (-n)
    refine ⟨(defined_div _ _).mpr ⟨defined_one, opposite.1, ?_⟩, ?_⟩
    · rw [opposite.2]
      exact inv_ne_zero (zpow_ne_zero n nonzero)
    · rw [Step.new, val_div, val_one, opposite.2, one_div, inv_inv]
  · rename_i natural
    have natural : 0 ≤ n := by omega
    split
    · rename_i inner a
      split
      · rename_i r rational
        refine nestedPower_spec natural hb (defined_ofRat _) ?_
        rw [val_ofRat, (rational?_spec rational).2, Rat.cast_mul, Rat.cast_intCast, mul_comm]
      · exact nestedPower_spec natural hb (by simpa using ((defined_pow inner a).mp hb).2.1) (by simp)
    · exact ⟨h, val_pow_exact _ n⟩
    · rename_i factors
      split
      · rename_i positive
        obtain ⟨defined, value⟩ := distributed_spec positive ((defined_node_multiply factors).mp hb)
        refine ⟨(defined_product _).mpr defined, ?_⟩
        rw [Step.new, val_product, value, val_node_multiply]
      · exact ⟨h, val_pow_exact _ n⟩
    · rename_i a b
      split
      · rename_i positive
        obtain ⟨ha, hd, nonzero⟩ := (defined_node_divide a b).mp hb
        refine ⟨(defined_div _ _).mpr ⟨(defined_pow_exact a n).mpr ⟨ha, fun _ => natural⟩,
          (defined_pow_exact b n).mpr ⟨hd, fun _ => natural⟩, ?_⟩, ?_⟩
        · rw [val_pow_exact]
          exact zpow_ne_zero n nonzero
        · rw [Step.new, val_div, val_pow_exact, val_pow_exact, val_node_divide, div_zpow]
      · exact ⟨h, val_pow_exact _ n⟩
    · exact ⟨h, val_pow_exact _ n⟩

theorem simplifySymbolicPower_keeps (laws : R.CollectionLaws) (base exponent : Expr) :
    R.Keeps (.pow base exponent) (simplifySymbolicPower base exponent).expr := by
  unfold simplifySymbolicPower
  split
  · rename_i n found
    rw [Expr.eq_of_integerExponent found]
    exact simplifyIntegerPower_keeps base n
  · split
    · rename_i arg isE logarithm
      intro h
      obtain ⟨-, he, n, integer, bound⟩ := (defined_pow _ _).mp h
      obtain rfl : base = .ident "e" := Expr.eq_ident_of_isIdent isE
      obtain rfl : exponent = .ln arg := Expr.eq_apply_of_argument? logarithm
      obtain ⟨arguments, some⟩ := (defined_call .ln [arg]).mp he
      obtain ⟨v, found⟩ := Option.isSome_iff_exists.mp some
      have value : R.val (.ln arg) = v := by
        simp only [Expr.ln, Expr.apply, val_call, found, Option.getD_some]
      refine ⟨arguments arg (by simp), ?_⟩
      rw [val_pow, ← integer, power_intCast]
      rw [← value, ← integer] at found
      exact (laws.exponential found bound).symm
    · exact Keeps.refl _

theorem simplifyPower_keeps (law : R.LawfulUnit) (laws : R.CollectionLaws) (base exponent : Expr) :
    R.Keeps (.pow base exponent) (simplifyPower base exponent).expr := by
  unfold simplifyPower
  split
  · rename_i z
    split
    · rename_i n found
      obtain rfl := Expr.eq_of_wordExponent found
      split
      · rename_i w raised
        intro h
        obtain ⟨hz, bound⟩ := (defined_pow_exact _ n).mp h
        obtain ⟨exactly, value⟩ := ComplexNumeral.pow?_spec (law.square hz.1) hz.2 bound raised
        obtain ⟨defined, same⟩ := ofComplex_spec hz.1 exactly
        exact ⟨defined, by rw [Step.new, same, value, val_pow_exact, val_complex_eq]⟩
      · exact Keeps.refl _
    · exact simplifySymbolicPower_keeps laws _ _
  · split
    · rename_i found
      exact simplifyNumeralPower_keeps found
    · exact simplifySymbolicPower_keeps laws _ _
  · exact simplifySymbolicPower_keeps laws _ _

end Reading

end SymbolicAlgebra
