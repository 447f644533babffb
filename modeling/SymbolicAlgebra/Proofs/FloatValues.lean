import Mathlib.Data.Real.Basic
import SymbolicAlgebra.Numeral.Basic
import SymbolicAlgebra.Proofs.RoundingOrder

/-! Floats as real numbers. -/
namespace SymbolicAlgebra

namespace Binary64

theorem magnitudeBits_lt (x : Binary64) : x.magnitudeBits < signWeight :=
  Nat.mod_lt _ (by decide)

theorem signBit_neg (x : Binary64) : x.neg.signBit = !x.signBit :=
  signBit_ofMagnitude _ x.magnitudeBits_lt

theorem magnitudeBits_neg (x : Binary64) : x.neg.magnitudeBits = x.magnitudeBits :=
  magnitudeBits_ofMagnitude _ x.magnitudeBits_lt

theorem significand_neg (x : Binary64) : x.neg.significand = x.significand := by
  unfold significand exponentField fractionField
  rw [magnitudeBits_neg]

theorem significand_of_isZero {x : Binary64} (zero : x.isZero) : x.significand.1 = 0 := by
  have none : x.magnitudeBits = 0 := by simpa [isZero] using zero
  simp [significand, exponentField, fractionField, none]

/-- The base of the exponent. -/
def radix : ℕ := 2

/-- The number that a finite value stands for. -/
noncomputable def toReal (x : Binary64) : ℝ :=
  (if x.signBit then -1 else 1) * x.significand.1 * radix ^ x.significand.2

theorem toReal_neg (x : Binary64) : x.neg.toReal = -x.toReal := by
  rw [toReal, toReal, signBit_neg, significand_neg]
  cases x.signBit <;> simp

theorem toReal_of_isZero {x : Binary64} (zero : x.isZero) : x.toReal = 0 := by
  rw [toReal, significand_of_isZero zero, Nat.cast_zero, mul_zero, zero_mul]

theorem toReal_one : one.toReal = 1 := by
  have sign : one.signBit = false := by decide
  have place : one.significand = (4503599627370496, -52) := by decide
  rw [toReal, sign, place, radix]
  norm_num

end Binary64

/-- The opposite of a float is a float. -/
theorem FiniteFloat.exists_neg (f : FiniteFloat) :
    ∃ g, (Numeral.float f).neg = .float g ∧ g.value.toReal = -f.value.toReal := by
  have magnitude := Binary64.magnitudeBits_neg f.value
  rw [Numeral.neg, Numeral.ofBinary64, ← Binary64.toReal_neg]
  split
  case isTrue zero => exact ⟨_, rfl, (Binary64.toReal_of_isZero (by decide)).trans
    (Binary64.toReal_of_isZero zero).symm⟩
  case isFalse nonzero =>
    have finite : f.value.isFinite = true := (Bool.and_eq_true .. ▸ f.ordinary).1
    have finite' : f.value.neg.isFinite = true := by
      simpa [Binary64.isFinite, magnitude] using finite
    exact ⟨_, dif_pos (by simp [finite', nonzero]), rfl⟩

end SymbolicAlgebra
