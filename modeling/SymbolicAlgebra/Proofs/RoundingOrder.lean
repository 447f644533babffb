import Mathlib.Algebra.Order.Field.Power
import Mathlib.Algebra.Order.Round
import Mathlib.Data.Rat.Cast.Order
import Mathlib.Tactic.FieldSimp
import Mathlib.Tactic.Linarith
import Mathlib.Tactic.Positivity
import SymbolicAlgebra.Number.Rounding

/-! Rounding a rational to binary64 keeps the order. -/
namespace SymbolicAlgebra

/-! ## Halves to even -/

/-- An integer nearest to `q`, the even one of two. -/
structure IsNearest (q : ℚ) (r : ℕ) : Prop where
  low : (r : ℚ) - 1 / 2 ≤ q
  high : q ≤ r + 1 / 2
  tie : q = r - 1 / 2 ∨ q = r + 1 / 2 → r % 2 = 0

theorem IsNearest.mono {q q' : ℚ} {r r' : ℕ} (h : IsNearest q r) (h' : IsNearest q' r')
    (le : q ≤ q') : r ≤ r' := by
  by_contra less
  have next : (r' : ℚ) + 1 ≤ r := by exact_mod_cast not_le.mp less
  have low := h.low
  have high := h'.high
  have same : (r : ℚ) = r' + 1 := by linarith
  have even := h.tie (.inl (by linarith))
  have even' := h'.tie (.inr (by linarith))
  have nat : r = r' + 1 := by exact_mod_cast same
  omega

theorem isNearest_self (r : ℕ) : IsNearest r r := by
  refine ⟨by linarith, by linarith, ?_⟩
  rintro (same | same) <;> exact absurd same (by intro; linarith)

theorem isNearest_divHalfEven (n : ℕ) {d : ℕ} (positive : 0 < d) :
    IsNearest ((n : ℚ) / d) (divHalfEven n d) := by
  have den : (0 : ℚ) < d := by exact_mod_cast positive
  have value : (n : ℚ) / d = (n / d : ℕ) + ((n % d : ℕ) : ℚ) / d := by
    rw [div_eq_iff den.ne', add_mul, div_mul_cancel₀ _ den.ne']
    exact_mod_cast (Nat.div_add_mod' n d).symm
  have below : ((n % d : ℕ) : ℚ) / d < 1 := by
    rw [div_lt_one den]
    exact_mod_cast Nat.mod_lt n positive
  have rest : (0 : ℚ) ≤ ((n % d : ℕ) : ℚ) / d := by positivity
  have half : 2 * (n % d) < d ↔ ((n % d : ℕ) : ℚ) / d < 1 / 2 := by
    rw [div_lt_iff₀ den, ← Nat.cast_lt (α := ℚ), Nat.cast_mul]
    constructor <;> intro h <;> push_cast at h ⊢ <;> linarith
  have half' : d < 2 * (n % d) ↔ 1 / 2 < ((n % d : ℕ) : ℚ) / d := by
    rw [lt_div_iff₀ den, ← Nat.cast_lt (α := ℚ), Nat.cast_mul]
    constructor <;> intro h <;> push_cast at h ⊢ <;> linarith
  rw [value, divHalfEven]
  simp only [half, half']
  generalize ((n % d : ℕ) : ℚ) / d = x at *
  generalize n / d = q
  have next : ((q + 1 : ℕ) : ℚ) = q + 1 := Nat.cast_succ q
  split_ifs with low high
  · refine ⟨by linarith, by linarith, ?_⟩
    rintro (same | same) <;> exact absurd same (by intro; linarith)
  · refine ⟨by linarith, by linarith, ?_⟩
    rintro (same | same) <;> exact absurd same (by intro; linarith)
  · have middle : x = 1 / 2 := le_antisymm (not_lt.mp high) (not_lt.mp low)
    rcases Nat.mod_two_eq_zero_or_one q with even | odd
    · rw [even, middle, Nat.add_zero]
      exact ⟨by linarith, by linarith, fun _ => even⟩
    · rw [odd, middle]
      exact ⟨by linarith, by linarith, fun _ => by omega⟩

theorem isNearest_divScaledHalfEven (n : ℕ) {d : ℕ} (positive : 0 < d) (e : ℤ) :
    IsNearest ((n : ℚ) / d / 2 ^ e) (divScaledHalfEven n d e) := by
  cases e with
  | ofNat k =>
    have near := isNearest_divHalfEven n (d := d <<< k) (by
      rw [Nat.shiftLeft_eq]
      exact Nat.mul_pos positive (Nat.pow_pos (by decide)))
    rw [Nat.shiftLeft_eq] at near
    push_cast at near
    rw [← div_div] at near
    rw [divScaledHalfEven, Nat.shiftLeft_eq, Int.ofNat_eq_natCast, zpow_natCast]
    exact near
  | negSucc k =>
    have near := isNearest_divHalfEven (n <<< (k + 1)) positive
    rw [Nat.shiftLeft_eq] at near
    push_cast at near
    rw [zpow_negSucc, div_inv_eq_mul, div_mul_eq_mul_div, divScaledHalfEven, Nat.shiftLeft_eq]
    exact near

/-! ## Binades -/

theorem reachesPowerOfTwo_iff (n : ℕ) {d : ℕ} (positive : 0 < d) (e : ℤ) :
    reachesPowerOfTwo n d e = true ↔ (2 : ℚ) ^ e ≤ (n : ℚ) / d := by
  have den : (0 : ℚ) < d := by exact_mod_cast positive
  cases e with
  | ofNat k =>
    rw [reachesPowerOfTwo, decide_eq_true_iff, Nat.shiftLeft_eq, Int.ofNat_eq_natCast,
      zpow_natCast, le_div_iff₀ den, mul_comm]
    exact_mod_cast Iff.rfl
  | negSucc k =>
    rw [reachesPowerOfTwo, decide_eq_true_iff, Nat.shiftLeft_eq, zpow_negSucc, le_div_iff₀ den,
      inv_mul_le_iff₀ (by positivity), mul_comm]
    exact_mod_cast Iff.rfl

theorem floorLog2Quotient_spec {n d : ℕ} (num : 0 < n) (positive : 0 < d) :
    (2 : ℚ) ^ floorLog2Quotient n d ≤ (n : ℚ) / d ∧
      (n : ℚ) / d < 2 ^ (floorLog2Quotient n d + 1) := by
  have den : (0 : ℚ) < d := by exact_mod_cast positive
  have two : (2 : ℚ) ≠ 0 := two_ne_zero
  have numLow : (2 : ℚ) ^ (n.log2 : ℤ) ≤ n := by
    rw [zpow_natCast]
    exact_mod_cast Nat.log2_self_le num.ne'
  have numHigh : (n : ℚ) < 2 ^ ((n.log2 : ℤ) + 1) := by
    rw [← Nat.cast_succ, zpow_natCast]
    exact_mod_cast Nat.lt_log2_self
  have denLow : (2 : ℚ) ^ (d.log2 : ℤ) ≤ d := by
    rw [zpow_natCast]
    exact_mod_cast Nat.log2_self_le positive.ne'
  have denHigh : (d : ℚ) < 2 ^ ((d.log2 : ℤ) + 1) := by
    rw [← Nat.cast_succ, zpow_natCast]
    exact_mod_cast Nat.lt_log2_self
  have above : (n : ℚ) / d < 2 ^ ((n.log2 : ℤ) - d.log2 + 1) := by
    rw [div_lt_iff₀ den]
    calc (n : ℚ) < 2 ^ ((n.log2 : ℤ) + 1) := numHigh
      _ = 2 ^ ((n.log2 : ℤ) - d.log2 + 1) * 2 ^ (d.log2 : ℤ) := by
        rw [← zpow_add₀ two]
        congr 1
        omega
      _ ≤ 2 ^ ((n.log2 : ℤ) - d.log2 + 1) * d := by gcongr
  have below : (2 : ℚ) ^ ((n.log2 : ℤ) - d.log2 - 1) ≤ (n : ℚ) / d := by
    rw [le_div_iff₀ den]
    calc (2 : ℚ) ^ ((n.log2 : ℤ) - d.log2 - 1) * d
        ≤ 2 ^ ((n.log2 : ℤ) - d.log2 - 1) * 2 ^ ((d.log2 : ℤ) + 1) := by gcongr
      _ = 2 ^ (n.log2 : ℤ) := by
        rw [← zpow_add₀ two]
        congr 1
        omega
      _ ≤ n := numLow
  unfold floorLog2Quotient
  by_cases reaches : reachesPowerOfTwo n d ((n.log2 : ℤ) - d.log2) = true
  · rw [if_pos reaches]
    exact ⟨(reachesPowerOfTwo_iff n positive _).mp reaches, above⟩
  · rw [if_neg reaches, sub_add_cancel]
    rw [reachesPowerOfTwo_iff n positive, not_le] at reaches
    exact ⟨below, reaches⟩

/-! ## Magnitudes -/

namespace Binary64

theorem nearestMagnitude_mono {n d n' d' : ℕ} (positive : 0 < d) (positive' : 0 < d')
    (le : (n : ℚ) / d ≤ (n' : ℚ) / d') : nearestMagnitude n d ≤ nearestMagnitude n' d' := by
  rcases Nat.eq_zero_or_pos n with rfl | num
  · exact Nat.zero_le _
  have den : (0 : ℚ) < d := by exact_mod_cast positive
  have den' : (0 : ℚ) < d' := by exact_mod_cast positive'
  have quotient : (0 : ℚ) < (n : ℚ) / d := div_pos (by exact_mod_cast num) den
  have num' : 0 < n' := by
    rcases Nat.eq_zero_or_pos n' with rfl | num'
    · rw [Nat.cast_zero, zero_div] at le
      exact absurd quotient (not_lt.mpr le)
    · exact num'
  have spec := floorLog2Quotient_spec num positive
  have spec' := floorLog2Quotient_spec num' positive'
  rw [nearestMagnitude, nearestMagnitude, if_neg num.ne', if_neg num'.ne']
  generalize floorLog2Quotient n d = e at spec
  generalize floorLog2Quotient n' d' = e' at spec'
  have near := isNearest_divScaledHalfEven n positive (lastPlace e)
  have near' := isNearest_divScaledHalfEven n' positive' (lastPlace e')
  -- Binades in order, and within one the nearest integers in order.
  have order : e ≤ e' := by
    have less : (2 : ℚ) ^ e < 2 ^ (e' + 1) := spec.1.trans_lt (le.trans_lt spec'.2)
    have := (zpow_lt_zpow_iff_right₀ (by norm_num : (1 : ℚ) < 2)).mp less
    omega
  refine min_le_min le_rfl ?_
  by_cases same : lastPlace e = lastPlace e'
  · rw [← same] at near' ⊢
    have scaled : (n : ℚ) / d / 2 ^ lastPlace e ≤ (n' : ℚ) / d' / 2 ^ lastPlace e := by gcongr
    have := near.mono near' scaled
    omega
  · have floor : -1074 ≤ lastPlace e := le_max_right _ _
    have slack : e - 52 ≤ lastPlace e := le_max_left _ _
    have up : lastPlace e ≤ lastPlace e' := max_le_max (by omega) le_rfl
    have next : lastPlace e' = e' - 52 := by
      unfold lastPlace at *
      omega
    have high : divScaledHalfEven n d (lastPlace e) ≤ 2 ^ 53 := by
      refine near.mono (isNearest_self (2 ^ 53)) ?_
      rw [div_le_iff₀ (by positivity)]
      calc (n : ℚ) / d ≤ 2 ^ (e + 1) := spec.2.le
        _ ≤ 2 ^ (53 + lastPlace e) := zpow_le_zpow_right₀ (by norm_num) (by omega)
        _ = ((2 ^ 53 : ℕ) : ℚ) * 2 ^ lastPlace e := by
          rw [zpow_add₀ two_ne_zero]
          norm_num
    have low : 2 ^ 52 ≤ divScaledHalfEven n' d' (lastPlace e') := by
      refine (isNearest_self (2 ^ 52)).mono near' ?_
      rw [le_div_iff₀ (by positivity), next]
      calc ((2 ^ 52 : ℕ) : ℚ) * 2 ^ (e' - 52) = 2 ^ (52 + (e' - 52)) := by
            rw [zpow_add₀ two_ne_zero]
            norm_num
        _ = 2 ^ e' := by
          congr 1
          omega
        _ ≤ (n' : ℚ) / d' := spec'.1
    have fields : (lastPlace e + 1074).toNat + 1 ≤ (lastPlace e' + 1074).toNat := by
      omega
    unfold fractionCount
    omega

theorem nearestMagnitude_le (n d : ℕ) : nearestMagnitude n d ≤ infinityBits := by
  unfold nearestMagnitude
  split
  · exact Nat.zero_le _
  · exact min_le_left _ _

theorem toNat_bits_ofMagnitude (negative : Bool) {magnitude : ℕ} (small : magnitude < signWeight) :
    (ofMagnitude negative magnitude).bits.toNat =
      if negative then signWeight + magnitude else magnitude := by
  unfold signWeight at *
  cases negative with
  | true =>
    show (UInt64.ofNat (9223372036854775808 + magnitude)).toNat = 9223372036854775808 + magnitude
    rw [UInt64.toNat_ofNat']
    omega
  | false =>
    show (UInt64.ofNat magnitude).toNat = magnitude
    rw [UInt64.toNat_ofNat']
    omega

theorem signBit_ofMagnitude (negative : Bool) {magnitude : ℕ} (small : magnitude < signWeight) :
    (ofMagnitude negative magnitude).signBit = negative := by
  rw [signBit, toNat_bits_ofMagnitude negative small]
  cases negative with
  | true => exact decide_eq_true (Nat.le_add_right _ _)
  | false => exact decide_eq_false (not_le.mpr small)

theorem magnitudeBits_ofMagnitude (negative : Bool) {magnitude : ℕ}
    (small : magnitude < signWeight) :
    (ofMagnitude negative magnitude).magnitudeBits = magnitude := by
  rw [magnitudeBits, toNat_bits_ofMagnitude negative small]
  cases negative with
  | true => exact (Nat.add_mod_left _ _).trans (Nat.mod_eq_of_lt small)
  | false => exact Nat.mod_eq_of_lt small

theorem position_ofMagnitude (negative : Bool) {magnitude : ℕ} (small : magnitude ≤ infinityBits) :
    (ofMagnitude negative magnitude).position =
      if negative then -(magnitude : ℤ) - 1 else magnitude := by
  have inside : magnitude < signWeight := small.trans_lt (by decide)
  rw [position, signBit_ofMagnitude negative inside, magnitudeBits_ofMagnitude negative inside]

theorem natAbs_div_den (r : ℚ) : (r.num.natAbs : ℚ) / r.den = |r| := by
  conv_rhs => rw [← Rat.num_div_den r, abs_div, Nat.abs_cast]
  rw [Nat.cast_natAbs, Int.cast_abs]

/-- Rounding keeps the order. -/
theorem position_ofRat_mono {r s : ℚ} (le : r ≤ s) : (ofRat r).position ≤ (ofRat s).position := by
  rw [ofRat, ofRat, position_ofMagnitude _ (nearestMagnitude_le _ _),
    position_ofMagnitude _ (nearestMagnitude_le _ _)]
  simp only [Rat.num_neg, decide_eq_true_eq]
  by_cases negative : r < 0
  · by_cases negative' : s < 0
    · have magnitudes : nearestMagnitude s.num.natAbs s.den ≤ nearestMagnitude r.num.natAbs r.den :=
        nearestMagnitude_mono s.pos r.pos (by
          rw [natAbs_div_den, natAbs_div_den, abs_of_neg negative, abs_of_neg negative']
          linarith)
      rw [if_pos negative, if_pos negative']
      omega
    · rw [if_pos negative, if_neg negative']
      omega
  · have positive : ¬s < 0 := by
      intro negative'
      exact negative (le.trans_lt negative')
    have magnitudes : nearestMagnitude r.num.natAbs r.den ≤ nearestMagnitude s.num.natAbs s.den :=
      nearestMagnitude_mono r.pos s.pos (by
        rwa [natAbs_div_den, natAbs_div_den, abs_of_nonneg (not_lt.mp negative),
          abs_of_nonneg (not_lt.mp positive)])
    rw [if_neg negative, if_neg positive]
    omega

end Binary64

end SymbolicAlgebra
