import Mathlib.Algebra.QuadraticAlgebra.Basic
import SymbolicAlgebra.Proofs.Constants

/-! Complex numerals with exact parts are the field of the rationals with a square root of minus
one: their arithmetic is that of the field, and so are their powers within the exponent limit. -/
namespace SymbolicAlgebra

/-- The numbers `r + s * i` with rational `r` and `s`, where `i * i` is `-1 + 0 * i`. -/
abbrev GaussianRational := QuadraticAlgebra ℚ (-1) 0

/-- No rational is a square root of minus one, so every other number than zero has an inverse. -/
instance noRationalUnit : Fact (∀ r : ℚ, r ^ 2 ≠ -1 + 0 * r) :=
  ⟨fun r square => by linarith [sq_nonneg r]⟩

namespace ComplexNumeral

open QuadraticAlgebra

/-- The complex numeral of a number. -/
def ofGaussian (p : GaussianRational) : ComplexNumeral := ⟨.exact p.re, .exact p.im⟩

variable {p q : GaussianRational} {z : ComplexNumeral}

theorem imaginaryUnit_mul_self : (omega : GaussianRational) * omega = -1 := by
  rw [omega_mul_omega_eq_mk]
  ext <;> simp

theorem isExact_ofGaussian (p : GaussianRational) : (ofGaussian p).IsExact := ⟨rfl, rfl⟩

@[simp] theorem val_ofGaussian (p : GaussianRational) : val omega (ofGaussian p) = p := by
  ext <;> simp [ofGaussian]

/-- An exact complex numeral is the one of its value. -/
theorem ofGaussian_val (h : z.IsExact) : ofGaussian (val omega z) = z := by
  obtain ⟨r, s, rfl⟩ := exists_exact h
  simp [ofGaussian]

theorem eq_ofGaussian (h : z.IsExact ∧ val omega z = p) : z = ofGaussian p := by
  rw [← h.2, ofGaussian_val h.1]

theorem isZero_ofGaussian : (ofGaussian p).isZero = true ↔ p = 0 := by
  simp [ofGaussian, isZero, QuadraticAlgebra.ext_iff]

theorem existsUnique_ofGaussian (z : ComplexNumeral) : z.IsExact ↔ ∃! p, ofGaussian p = z := by
  constructor
  · intro exactly
    refine ⟨val omega z, ofGaussian_val exactly, ?_⟩
    rintro p rfl
    exact (val_ofGaussian p).symm
  · rintro ⟨p, rfl, -⟩
    exact isExact_ofGaussian p

/-! ## Arithmetic -/

theorem add_ofGaussian (p q : GaussianRational) :
    (ofGaussian p).add (ofGaussian q) = ofGaussian (p + q) := rfl

theorem sub_ofGaussian (p q : GaussianRational) :
    (ofGaussian p).sub (ofGaussian q) = ofGaussian (p - q) := rfl

theorem neg_ofGaussian (p : GaussianRational) : (ofGaussian p).neg = ofGaussian (-p) := rfl

theorem mul_ofGaussian (p q : GaussianRational) :
    (ofGaussian p).mul (ofGaussian q) = ofGaussian (p * q) := by
  have product := mul_spec imaginaryUnit_mul_self (isExact_ofGaussian p) (isExact_ofGaussian q)
  rw [val_ofGaussian, val_ofGaussian] at product
  exact eq_ofGaussian product

theorem div_ofGaussian (p : GaussianRational) (nonzero : q ≠ 0) :
    (ofGaussian p).div (ofGaussian q) = ofGaussian (p / q) := by
  have notZero : (ofGaussian q).isZero = false := by
    rw [← Bool.not_eq_true, isZero_ofGaussian]
    exact nonzero
  obtain ⟨exactly, product⟩ :=
    div_spec imaginaryUnit_mul_self (isExact_ofGaussian p) (isExact_ofGaussian q) notZero
  rw [val_ofGaussian, val_ofGaussian] at product
  exact eq_ofGaussian ⟨exactly, eq_div_of_mul_eq nonzero product⟩

/-! ## Powers -/

/-- The exponents for which powers are worked out. -/
def HasPower (p : GaussianRational) (n : ℤ) : Prop := n.natAbs ≤ 4096 ∧ (p = 0 → 0 ≤ n)

theorem pow?_ofGaussian_of_hasPower {n : ℤ} (inRange : HasPower p n) :
    (ofGaussian p).pow? n = some (ofGaussian (p ^ n)) := by
  obtain ⟨small, regular⟩ := inRange
  obtain ⟨w, found⟩ : ∃ w, (ofGaussian p).pow? n = some w := by
    refine ⟨_, if_neg ?_⟩
    rw [isZero_ofGaussian]
    rintro (large | ⟨negative, zero⟩)
    · exact large.not_ge small
    · exact negative.not_ge (regular zero)
  have power := pow?_spec imaginaryUnit_mul_self (isExact_ofGaussian p)
    (by rwa [val_ofGaussian]) found
  rw [val_ofGaussian] at power
  rw [found, eq_ofGaussian power]

theorem pow?_ofGaussian_eq_none_iff {n : ℤ} :
    (ofGaussian p).pow? n = none ↔ ¬ HasPower p n := by
  constructor
  · intro none inRange
    rw [pow?_ofGaussian_of_hasPower inRange] at none
    cases none
  · intro outside
    refine if_pos ?_
    rw [isZero_ofGaussian]
    by_contra inside
    push Not at inside
    exact outside ⟨inside.1, fun zero => not_lt.mp fun negative => inside.2 negative zero⟩

/-- Exponents add up where the power to each of them and to their sum is worked out. -/
theorem pow?_add {m n : ℤ} (hm : HasPower p m) (hn : HasPower p n) (sum : HasPower p (m + n)) :
    ∃ a b, (ofGaussian p).pow? m = some a ∧ (ofGaussian p).pow? n = some b ∧
      (ofGaussian p).pow? (m + n) = some (a.mul b) := by
  refine ⟨_, _, pow?_ofGaussian_of_hasPower hm, pow?_ofGaussian_of_hasPower hn, ?_⟩
  rw [pow?_ofGaussian_of_hasPower sum, mul_ofGaussian, zpow_add_of_nonneg hm.2 hn.2]

/-- Complex numerals with exact parts are the field of the Gaussian rationals, and their powers are
those of the field up to the exponent limit, where zero has no power to a negative exponent. -/
theorem exact_arithmetic_gaussian :
    (∀ z : ComplexNumeral, z.IsExact ↔ ∃! p, ofGaussian p = z) ∧
    (∀ p q : GaussianRational,
      (ofGaussian p).add (ofGaussian q) = ofGaussian (p + q) ∧
      (ofGaussian p).sub (ofGaussian q) = ofGaussian (p - q) ∧
      (ofGaussian p).neg = ofGaussian (-p) ∧
      (ofGaussian p).mul (ofGaussian q) = ofGaussian (p * q) ∧
      (q ≠ 0 → (ofGaussian p).div (ofGaussian q) = ofGaussian (p / q) ∧
        ((ofGaussian p).div (ofGaussian q)).mul (ofGaussian q) = ofGaussian p)) ∧
    (∀ (p : GaussianRational) (n : ℤ),
      (HasPower p n → (ofGaussian p).pow? n = some (ofGaussian (p ^ n))) ∧
      (¬ HasPower p n → (ofGaussian p).pow? n = none)) ∧
    ∀ (p : GaussianRational) (m n : ℤ), HasPower p m → HasPower p n → HasPower p (m + n) →
      ∃ a b, (ofGaussian p).pow? m = some a ∧ (ofGaussian p).pow? n = some b ∧
        (ofGaussian p).pow? (m + n) = some (a.mul b) := by
  refine ⟨existsUnique_ofGaussian, fun p q => ?_, fun p n => ?_, fun p m n => pow?_add⟩
  · refine ⟨add_ofGaussian p q, sub_ofGaussian p q, neg_ofGaussian p, mul_ofGaussian p q,
      fun nonzero => ⟨div_ofGaussian p nonzero, ?_⟩⟩
    rw [div_ofGaussian p nonzero, mul_ofGaussian, div_mul_cancel₀ p nonzero]
  · exact ⟨pow?_ofGaussian_of_hasPower, pow?_ofGaussian_eq_none_iff.mpr⟩

/-- The cube of `2 + i` times its power to `-2` is `2 + i`, and zero has no power to `-2`. -/
theorem exact_arithmetic_gaussian_of_two_add_i :
    let p : GaussianRational := ⟨2, 1⟩
    IsExact ⟨.exact 2, .exact 1⟩ ∧ p ≠ 0 ∧ HasPower p 3 ∧ HasPower p (-2) ∧ HasPower p (3 + -2) ∧
      ¬ HasPower 0 (-2) ∧ (∃! q, ofGaussian q = ⟨.exact 2, .exact 1⟩) ∧
      ((ofGaussian 1).div (ofGaussian p)).mul (ofGaussian p) = ofGaussian 1 ∧
      (ofGaussian p).pow? 3 = some (ofGaussian ⟨2, 11⟩) ∧ (ofGaussian 0).pow? (-2) = none ∧
      ∃ a b, (ofGaussian p).pow? 3 = some a ∧ (ofGaussian p).pow? (-2) = some b ∧
        (ofGaussian p).pow? (3 + -2) = some (a.mul b) := by
  intro p
  have nonzero : p ≠ 0 := fun zero => absurd (congrArg QuadraticAlgebra.im zero) one_ne_zero
  have inRange (n : ℤ) (small : n.natAbs ≤ 4096) : HasPower p n :=
    ⟨small, fun zero => absurd zero nonzero⟩
  have outside : ¬ HasPower 0 (-2) := fun inside => absurd (inside.2 rfl) (by decide)
  have cube : p ^ (3 : ℤ) = ⟨2, 11⟩ := by
    rw [zpow_ofNat, pow_succ, sq]
    ext <;> simp [p] <;> norm_num
  obtain ⟨numerals, operations, powers, sums⟩ := exact_arithmetic_gaussian
  refine ⟨⟨rfl, rfl⟩, nonzero, inRange 3 (by decide), inRange (-2) (by decide),
    inRange (3 + -2) (by decide), outside, (numerals _).mp ⟨rfl, rfl⟩,
    ((operations 1 p).2.2.2.2 nonzero).2, ?_, (powers 0 (-2)).2 outside,
    sums p 3 (-2) (inRange 3 (by decide)) (inRange (-2) (by decide))
      (inRange (3 + -2) (by decide))⟩
  rw [(powers p 3).1 (inRange 3 (by decide)), cube]

end ComplexNumeral

end SymbolicAlgebra
