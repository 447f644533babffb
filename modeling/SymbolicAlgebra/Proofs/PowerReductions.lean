import SymbolicAlgebra.Proofs.CallSlopes
import SymbolicAlgebra.Proofs.ReductionFormulas

/-! The reduction formulas in a field with a derivation, and products of sines and cosines as sums:
with antiderivatives of what is left they give antiderivatives. -/
namespace SymbolicAlgebra

namespace DifferentialReading

variable {K : Type*} [Field K] {M : DifferentialReading K} {x : String} {s u v w : K}

/-! ## Slopes of powers -/

namespace RatiosAt

variable {family : Ratio → NamedFunction} {a b : K} (h : M.RatiosAt family s u a b) (m : ℕ)
include h

theorem sine_power :
    M.D (a ^ (m + 1) * b) = ((m + 1) * a ^ m - s * (m + 2) * a ^ (m + 2)) * M.D u := by
  rw [M.D.leibniz, D_pow, h.slope_sine, h.slope_cosine, Nat.add_sub_cancel, smul_eq_mul,
    smul_eq_mul]
  push_cast
  linear_combination (m + 1) * a ^ m * M.D u * h.unit

theorem cosine_power :
    M.D (b ^ (m + 1) * a) = ((m + 2) * b ^ (m + 2) - (m + 1) * b ^ m) * M.D u := by
  rw [M.D.leibniz, D_pow, h.slope_sine, h.slope_cosine, Nat.add_sub_cancel, smul_eq_mul,
    smul_eq_mul]
  push_cast
  linear_combination -(m + 1) * b ^ m * M.D u * h.unit

theorem tan_power (nonzero : b ≠ 0) :
    M.D ((a / b) ^ (m + 1)) = (m + 1) * ((a / b) ^ m + s * (a / b) ^ (m + 2)) * M.D u := by
  rw [D_pow, Nat.add_sub_cancel, h.tan nonzero, h.tan_sq nonzero]
  push_cast
  ring

theorem cot_power (nonzero : a ≠ 0) :
    M.D ((b / a) ^ (m + 1)) = -(m + 1) * ((b / a) ^ (m + 2) + s * (b / a) ^ m) * M.D u := by
  rw [D_pow, Nat.add_sub_cancel, h.cot nonzero, h.cot_sq nonzero]
  push_cast
  ring

theorem sec_power (nonzero : b ≠ 0) :
    M.D ((1 / b) ^ m * (a / b)) = ((m + 1) * (1 / b) ^ (m + 2) - m * (1 / b) ^ m) * M.D u := by
  have power : M.D ((1 / b) ^ m) = m * s * (1 / b) ^ m * (a / b) * M.D u := by
    rw [D_pow, h.sec nonzero]
    cases m with
    | zero => simp
    | succ m =>
      rw [Nat.add_sub_cancel]
      ring
  rw [M.D.leibniz, power, h.tan nonzero, smul_eq_mul, smul_eq_mul]
  linear_combination -m * (1 / b) ^ m * M.D u * h.tan_sq nonzero

theorem csc_power (nonzero : a ≠ 0) :
    M.D ((1 / a) ^ m * (b / a)) =
      (s * m * (1 / a) ^ m - (m + 1) * (1 / a) ^ (m + 2)) * M.D u := by
  have power : M.D ((1 / a) ^ m) = -m * (1 / a) ^ m * (b / a) * M.D u := by
    rw [D_pow, h.csc nonzero]
    cases m with
    | zero => simp
    | succ m =>
      rw [Nat.add_sub_cancel]
      push_cast
      ring
  rw [M.D.leibniz, power, h.cot nonzero, smul_eq_mul, smul_eq_mul]
  linear_combination m * (1 / a) ^ m * M.D u * h.cot_sq nonzero

end RatiosAt

/-! ## Values of the terms of a formula -/

theorem value?_raised (laws : M.Elementary x) {base : Expr} {k : ℤ} {j : ℕ} (natural : k = j)
    (h : M.value? base = some u) : M.value? (base.raised k) = some (u ^ j) := by
  subst natural
  unfold Expr.raised
  split
  · rename_i zero
    obtain rfl : j = 0 := by exact_mod_cast zero
    simp
  split
  · rename_i one
    obtain rfl : j = 1 := by exact_mod_cast one
    rwa [pow_one]
  · exact value?_pow.mpr ⟨u, h, j, by simp, laws.natural_power u j⟩

theorem D_fraction (p q : ℤ) : M.D ((p : K) / q) = 0 := by
  rw [M.D.leibniz_div, M.D.map_intCast, M.D.map_intCast]
  simp

theorem cast_below_next (m : ℕ) : ((m + 2 - 1 : ℤ) : K) = m + 1 := by
  push_cast
  ring

section Formulas

variable [CharZero K] {f g : NamedFunction} {weight : Expr} {c : K} {p q k : ℤ} {j m : ℕ}

theorem value?_ratio (nonzero : q ≠ 0) :
    M.value? (.ofNumeral (.ofQuotient p q)) = some (p / q : K) := by
  rw [Numeral.ofQuotient, if_neg nonzero, value?_ofNumeral, numeral?_exact]
  exact ⟨by simp, by rw [Rat.divInt_eq_div]; push_cast; rfl⟩

/-! ## The formulas -/

/-- The weight is a constant `c`, and wherever `f` has a value `u` at the symbol, the boundary has
the slope `u ^ (m + 2) - c * u ^ m`. -/
def Lowers (M : DifferentialReading K) (x : String) (f : NamedFunction) (m : ℕ) (r : Reduction) :
    Prop :=
  ∃ c, M.value? r.weight = some c ∧ M.D c = 0 ∧ ∀ u, M.call? f [M.ident x] = some u →
    ∃ b, M.value? r.boundary = some b ∧ M.D b = u ^ (m + 2) - c * u ^ m

variable (laws : M.Elementary x)
include laws

/-- A boundary with a power of `f` and another function. -/
theorem lowers_mixed (natural : k = j) (nonzero : q ≠ 0) (hweight : M.value? weight = some c)
    (constant : M.D c = 0)
    (hf : ∀ u, M.call? f [M.ident x] = some u → ∃ z, M.call? g [M.ident x] = some z ∧
      p / q * M.D (u ^ j * z) = u ^ (m + 2) - c * u ^ m) :
    M.Lowers x f m ⟨(Expr.ofNumeral (.ofQuotient p q)).times
      (.product [(Expr.apply f (.ident x)).raised k, .apply g (.ident x)]), weight⟩ := by
  refine ⟨c, hweight, constant, fun u hu => ?_⟩
  obtain ⟨z, hz, slope⟩ := hf u hu
  have power := value?_raised laws natural (value?_apply_ident.mpr hu)
  refine ⟨p / q * (u ^ j * z), laws.exact.readsNumerals.value?_mul (value?_ratio nonzero)
    (value?_times.mpr ⟨_, power, z, value?_apply_ident.mpr hz, rfl⟩), ?_⟩
  rw [M.D.leibniz, D_fraction, smul_zero, add_zero, smul_eq_mul, slope]

/-- A boundary with a power of `f` alone. -/
theorem lowers_lone (natural : k = j) (nonzero : q ≠ 0) (hweight : M.value? weight = some c)
    (constant : M.D c = 0)
    (hf : ∀ u, M.call? f [M.ident x] = some u →
      p / q * M.D (u ^ j) = u ^ (m + 2) - c * u ^ m) :
    M.Lowers x f m ⟨(Expr.ofNumeral (.ofQuotient p q)).times
      ((Expr.apply f (.ident x)).raised k), weight⟩ := by
  refine ⟨c, hweight, constant, fun u hu => ?_⟩
  refine ⟨p / q * u ^ j, laws.exact.readsNumerals.value?_mul (value?_ratio nonzero)
    (value?_raised laws natural (value?_apply_ident.mpr hu)), ?_⟩
  rw [M.D.leibniz, D_fraction, smul_zero, add_zero, smul_eq_mul, hf u hu]

end Formulas

section Ratios

variable [CharZero K] (family : Ratio → NamedFunction) {m : ℕ} {p a : ℤ} (laws : M.Elementary x)
  (ratios : ∀ {q v}, M.call? (family q) [M.ident x] = some v →
    ∃ a b, M.RatiosAt family s (M.ident x) a b)
include laws ratios

theorem lowers_sine (unit : s * s = 1) (hp : (p : K) = -s) (ha : (a : K) = s * (m + 1)) :
    M.Lowers x (family .sin) m ⟨(Expr.ofNumeral (.ofQuotient p (m + 2))).times
      (.product [(Expr.apply (family .sin) (.ident x)).raised (m + 2 - 1),
        .apply (family .cos) (.ident x)]), .ofNumeral (.ofQuotient a (m + 2))⟩ := by
  refine lowers_mixed laws (j := m + 1) (by push_cast; ring) (by omega) (value?_ratio (by omega))
    (D_fraction _ _) fun u hu => ?_
  obtain ⟨a, b, h⟩ := ratios hu
  obtain rfl := h.reads.sin_iff.mp hu
  refine ⟨b, h.reads.cos, ?_⟩
  rw [h.sine_power, laws.ident_self, hp, ha]
  have positive : (m + 2 : K) ≠ 0 := by exact_mod_cast (Nat.succ_ne_zero (m + 1))
  push_cast
  field_simp
  linear_combination (m + 2) * a ^ (m + 2) * unit

theorem lowers_cosine :
    M.Lowers x (family .cos) m ⟨(Expr.ofNumeral (.ofQuotient 1 (m + 2))).times
      (.product [(Expr.apply (family .cos) (.ident x)).raised (m + 2 - 1),
        .apply (family .sin) (.ident x)]), .ofNumeral (.ofQuotient (m + 2 - 1) (m + 2))⟩ := by
  refine lowers_mixed laws (j := m + 1) (by push_cast; ring) (by omega) (value?_ratio (by omega))
    (D_fraction _ _) fun u hu => ?_
  obtain ⟨a, b, h⟩ := ratios hu
  obtain rfl := h.reads.cos_iff.mp hu
  refine ⟨a, h.reads.sin, ?_⟩
  rw [h.cosine_power, laws.ident_self, cast_below_next]
  have positive : (m + 2 : K) ≠ 0 := by exact_mod_cast (Nat.succ_ne_zero (m + 1))
  push_cast
  field_simp

theorem lowers_tangent (unit : s * s = 1) (hp : (p : K) = s) (ha : (a : K) = -s) :
    M.Lowers x (family .tan) m ⟨(Expr.ofNumeral (.ofQuotient p (m + 2 - 1))).times
      ((Expr.apply (family .tan) (.ident x)).raised (m + 2 - 1)), .ofInt a⟩ := by
  refine lowers_lone laws (j := m + 1) (by push_cast; ring) (by omega) (value?_ofInt a)
    (M.D.map_intCast a) fun u hu => ?_
  obtain ⟨a, b, h⟩ := ratios hu
  obtain ⟨nonzero, rfl⟩ := h.reads.tan_iff.mp hu
  rw [h.tan_power m nonzero, laws.ident_self, cast_below_next, hp, ha]
  have positive : (m + 1 : K) ≠ 0 := by exact_mod_cast (Nat.succ_ne_zero m)
  rw [mul_one, ← mul_assoc, div_mul_cancel₀ _ positive]
  linear_combination (a / b) ^ (m + 2) * unit

theorem lowers_cotangent (ha : (a : K) = -s) :
    M.Lowers x (family .cot) m ⟨(Expr.ofNumeral (.ofQuotient (-1) (m + 2 - 1))).times
      ((Expr.apply (family .cot) (.ident x)).raised (m + 2 - 1)), .ofInt a⟩ := by
  refine lowers_lone laws (j := m + 1) (by push_cast; ring) (by omega) (value?_ofInt a)
    (M.D.map_intCast a) fun u hu => ?_
  obtain ⟨a, b, h⟩ := ratios hu
  obtain ⟨nonzero, rfl⟩ := h.reads.cot_iff.mp hu
  rw [h.cot_power m nonzero, laws.ident_self, cast_below_next, ha]
  have positive : (m + 1 : K) ≠ 0 := by exact_mod_cast (Nat.succ_ne_zero m)
  rw [mul_one, neg_mul, mul_neg, ← mul_assoc, Int.cast_neg, Int.cast_one, neg_div, neg_mul,
    div_mul_cancel₀ _ positive]
  ring

theorem lowers_secant :
    M.Lowers x (family .sec) m ⟨(Expr.ofNumeral (.ofQuotient 1 (m + 2 - 1))).times
      (.product [(Expr.apply (family .sec) (.ident x)).raised (m + 2 - 2),
        .apply (family .tan) (.ident x)]),
      .ofNumeral (.ofQuotient (m + 2 - 2) (m + 2 - 1))⟩ := by
  refine lowers_mixed laws (j := m) (by ring) (by omega) (value?_ratio (by omega))
    (D_fraction _ _) fun u hu => ?_
  obtain ⟨a, b, h⟩ := ratios hu
  obtain ⟨nonzero, rfl⟩ := h.reads.sec_iff.mp hu
  refine ⟨a / b, h.reads.tan_iff.mpr ⟨nonzero, rfl⟩, ?_⟩
  have positive : (m + 1 : K) ≠ 0 := by exact_mod_cast (Nat.succ_ne_zero m)
  rw [h.sec_power m nonzero, laws.ident_self, cast_below_next]
  push_cast
  field_simp
  ring

theorem lowers_cosecant (circular : s = 1) :
    M.Lowers x (family .csc) m ⟨(Expr.ofNumeral (.ofQuotient (-1) (m + 2 - 1))).times
      (.product [(Expr.apply (family .csc) (.ident x)).raised (m + 2 - 2),
        .apply (family .cot) (.ident x)]),
      .ofNumeral (.ofQuotient (m + 2 - 2) (m + 2 - 1))⟩ := by
  refine lowers_mixed laws (j := m) (by ring) (by omega) (value?_ratio (by omega))
    (D_fraction _ _) fun u hu => ?_
  obtain ⟨a, b, h⟩ := ratios hu
  obtain ⟨nonzero, rfl⟩ := h.reads.csc_iff.mp hu
  refine ⟨b / a, h.reads.cot_iff.mpr ⟨nonzero, rfl⟩, ?_⟩
  have positive : (m + 1 : K) ≠ 0 := by exact_mod_cast (Nat.succ_ne_zero m)
  rw [h.csc_power m nonzero, laws.ident_self, cast_below_next, circular]
  push_cast
  field_simp
  ring

end Ratios

section Reduced

variable [CharZero K] (laws : M.Elementary x)
include laws

theorem lowers_reductionOf {f : NamedFunction} {m : ℕ} {r : Reduction}
    (found : reductionOf? x (m + 2) f = some r) : M.Lowers x f m r := by
  unfold reductionOf? at found
  dsimp only at found
  split at found <;> cases found
  case h_1 =>
    exact lowers_sine .circular laws laws.circularAt (by norm_num) (by norm_num)
      (by push_cast; ring)
  case h_2 => exact lowers_cosine .circular laws laws.circularAt
  case h_3 =>
    exact lowers_sine .hyperbolic laws laws.hyperbolicAt (by norm_num) (by norm_num)
      (by push_cast; ring)
  case h_4 => exact lowers_cosine .hyperbolic laws laws.hyperbolicAt
  case h_5 => exact lowers_secant .circular laws laws.circularAt
  case h_6 => exact lowers_cosecant .circular laws laws.circularAt rfl
  case h_7 =>
    exact lowers_tangent .circular laws laws.circularAt (by norm_num) (by norm_num) (by norm_num)
  case h_8 => exact lowers_cotangent .circular laws laws.circularAt (by norm_num)
  case h_9 =>
    exact lowers_tangent .hyperbolic laws laws.hyperbolicAt (by norm_num) (by norm_num)
      (by norm_num)
  case h_10 => exact lowers_cotangent .hyperbolic laws laws.hyperbolicAt (by norm_num)

/-- A formula for a power of a function of the symbol. -/
theorem lowers_of_functionPower? {e : Expr} {f : NamedFunction} {n : ℤ} {r : Reduction}
    (power : functionPower? x e = some (f, n)) (formula : reductionOf? x n f = some r)
    (hw : M.value? e = some w) :
    ∃ c b l, M.value? r.weight = some c ∧ M.D c = 0 ∧ M.value? r.boundary = some b ∧
      M.value? ((Expr.apply f (.ident x)).raised (n - 2)) = some l ∧ M.D b = w - c * l := by
  obtain ⟨rfl, low⟩ := functionPower?_spec power
  obtain ⟨m, rfl⟩ : ∃ m : ℕ, n = m + 2 := ⟨(n - 2).toNat, by omega⟩
  obtain ⟨u, hu, k, hk, hw⟩ := value?_pow.mp hw
  obtain rfl : ((m + 2 : ℕ) : K) = k := by simpa using hk
  obtain rfl := Option.some.inj ((laws.natural_power u (m + 2)).symm.trans hw)
  obtain ⟨c, weight, constant, boundary⟩ := lowers_reductionOf laws formula
  obtain ⟨b, hb, slope⟩ := boundary u (value?_apply_ident.mp hu)
  exact ⟨c, b, u ^ m, weight, constant, hb, value?_raised laws (by ring) hu, slope⟩

end Reduced

/-! ## Products of sines and cosines -/

/-- The sine or the cosine. -/
def sineOrCosine (sine : Bool) (a b : K) : K := if sine then a else b

theorem linearSine?_reads (laws : M.Elementary x) {e : Expr} {sine : Bool} {arg : Expr}
    (found : linearSine? x e = some (sine, arg)) (hv : M.value? e = some v) :
    ∃ u a b, M.value? arg = some u ∧ M.ReadsRatios .circular u a b ∧ sineOrCosine sine a b = v := by
  unfold linearSine? at found
  split at found
  · simp only [Option.ite_none_right_eq_some, Option.some.injEq, Prod.mk.injEq] at found
    obtain ⟨-, rfl, rfl⟩ := found
    obtain ⟨u, hu, call⟩ := value?_apply.mp hv
    obtain ⟨a, b, h⟩ := laws.circular.ratios call
    exact ⟨u, a, b, hu, h, h.sin_iff.mp call⟩
  · simp only [Option.ite_none_right_eq_some, Option.some.injEq, Prod.mk.injEq] at found
    obtain ⟨-, rfl, rfl⟩ := found
    obtain ⟨u, hu, call⟩ := value?_apply.mp hv
    obtain ⟨a, b, h⟩ := laws.circular.ratios call
    exact ⟨u, a, b, hu, h, h.cos_iff.mp call⟩
  · cases found

section Products

variable {p q a b c d : K} (first : M.ReadsRatios .circular p a b)
  (second : M.ReadsRatios .circular q c d)
include first second

/-- The sum is twice the product. The sine comes first in a product of a sine and a cosine. -/
theorem value?_productToSum (laws : M.Elementary x) {aSine bSine flipped : Bool}
    {total difference : Expr} (ordered : aSine = false → bSine = false)
    (htotal : M.value? total = some (p + q))
    (hdifference : M.value? difference = some (if flipped then -(p - q) else p - q)) :
    M.value? (productToSum (aSine || bSine) (aSine && bSine) flipped total difference) =
      some (2 * (sineOrCosine aSine a b * sineOrCosine bSine c d)) := by
  have sum := laws.circular.add first second
  have away : M.ReadsRatios .circular (p - q) (a * d - b * c) (b * d + a * c) := by
    have opposite := laws.circular.add first (laws.circular.neg second)
    convert opposite using 1 <;> ring
  have sinTotal := value?_apply.mpr ⟨_, htotal, sum.sin⟩
  have cosTotal := value?_apply.mpr ⟨_, htotal, sum.cos⟩
  have cosDifference : M.value? (.apply .cos difference) = some (b * d + a * c) := by
    refine value?_apply.mpr ⟨_, hdifference, ?_⟩
    split
    · exact (laws.circular.neg away).cos
    · exact away.cos
  have sinDifference : M.value? (.apply .sin difference) =
      some (if flipped then -(a * d - b * c) else a * d - b * c) := by
    refine value?_apply.mpr ⟨_, hdifference, ?_⟩
    split
    · exact (laws.circular.neg away).sin
    · exact away.sin
  cases aSine <;> cases bSine
  case false.false =>
    refine value?_plus.mpr ⟨_, cosDifference, _, cosTotal, ?_⟩
    simp only [sineOrCosine, Bool.false_eq_true, if_false]
    ring
  case false.true => cases ordered rfl
  case true.false =>
    cases flipped with
    | true =>
      refine value?_sub.mpr ⟨_, sinTotal, _, sinDifference, ?_⟩
      simp only [sineOrCosine, Bool.false_eq_true, if_true, if_false]
      ring
    | false =>
      refine value?_plus.mpr ⟨_, sinTotal, _, sinDifference, ?_⟩
      simp only [sineOrCosine, Bool.false_eq_true, if_true, if_false]
      ring
  case true.true =>
    refine value?_sub.mpr ⟨_, cosDifference, _, cosTotal, ?_⟩
    simp only [sineOrCosine, if_true]
    ring

theorem value?_halfSum [CharZero K] (laws : M.Elementary x) {simplify : Expr → Expr}
    (keeps : M.KeepsValues simplify) {aSine bSine : Bool} {u v sum : Expr}
    (ordered : aSine = false → bSine = false) (hu : M.value? u = some p)
    (hv : M.value? v = some q)
    (found : halfSumUsing? simplify (aSine || bSine) (aSine && bSine) u v = some sum) :
    M.value? sum = some (sineOrCosine aSine a b * sineOrCosine bSine c d) := by
  simp only [halfSumUsing?, Option.ite_none_left_eq_some, Option.some.injEq] at found
  obtain ⟨-, rfl⟩ := found
  have total := keeps _ _ (value?_plus.mpr ⟨p, hu, q, hv, rfl⟩)
  have apart := keeps _ _ (value?_sub.mpr ⟨p, hu, q, hv, rfl⟩)
  have difference : M.value? (dropSignUsing simplify (simplify (.sub u v))).1 =
      some (if (dropSignUsing simplify (simplify (.sub u v))).2 then -(p - q) else p - q) := by
    unfold dropSignUsing
    split
    · exact keeps _ _ (laws.exact.readsNumerals.value?_negate apart)
    · exact apart
  have doubled := value?_productToSum first second laws ordered total difference
  refine keeps _ _ (value?_div.mpr ⟨_, doubled, 2, by simp, two_ne_zero, ?_⟩)
  rw [mul_div_cancel_left₀ _ two_ne_zero]

end Products

/-- A product of two sines or cosines has the value of the half sum. -/
theorem value?_sineProduct [CharZero K] (laws : M.Elementary x) {simplify : Expr → Expr}
    (keeps : M.KeepsValues simplify) {a b sum : Expr}
    (found : sineProductUsing? simplify x a b = some sum) (ha : M.value? a = some v)
    (hb : M.value? b = some w) : M.value? sum = some (v * w) := by
  obtain ⟨⟨aSine, e⟩, first, rest⟩ := Option.bind_eq_some_iff.mp found
  obtain ⟨⟨bSine, f⟩, second, halved⟩ := Option.bind_eq_some_iff.mp rest
  obtain ⟨p, _, _, hp, atP, rfl⟩ := linearSine?_reads laws first ha
  obtain ⟨q, _, _, hq, atQ, rfl⟩ := linearSine?_reads laws second hb
  dsimp only at halved
  split at halved
  · rename_i swapped
    rw [Bool.or_comm, Bool.and_comm] at halved
    rw [mul_comm]
    exact value?_halfSum atQ atP laws keeps (by simp_all) hq hp halved
  · exact value?_halfSum atP atQ laws keeps (by simp_all) hp hq halved

end DifferentialReading

end SymbolicAlgebra
