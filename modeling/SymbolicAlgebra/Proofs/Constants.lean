import Mathlib.Tactic.Linarith
import Mathlib.Tactic.LinearCombination
import SymbolicAlgebra.Expr.ComplexConstant
import SymbolicAlgebra.Proofs.Terms

/-! Values of constants: complex numerals with exact parts are numbers `r + s * i`, and their
arithmetic is that of the field. -/
namespace SymbolicAlgebra

/-- Repeated squaring computes powers wherever the multiplication does, on a set it stays in. -/
theorem powerOnto_spec {α M : Type*} [CommMonoid M] {mul : α → α → α} {P : α → Prop} {φ : α → M}
    (closed : ∀ a b, P a → P b → P (mul a b) ∧ φ (mul a b) = φ a * φ b) (n : Nat) {acc base : α}
    (ha : P acc) (hb : P base) :
    P (powerOnto mul acc base n) ∧ φ (powerOnto mul acc base n) = φ acc * φ base ^ n := by
  induction n using Nat.strongRecOn generalizing acc base with
  | ind n ih =>
    unfold powerOnto
    by_cases zero : n = 0
    · simp [zero, ha]
    · obtain ⟨squared, square⟩ := closed base base hb hb
      have half : φ base ^ n = φ base ^ (n % 2) * (φ base * φ base) ^ (n / 2) := by
        rw [← pow_two, ← pow_mul, ← pow_add, Nat.mod_add_div]
      by_cases odd : n % 2 = 1
      · obtain ⟨next, product⟩ := closed acc base ha hb
        obtain ⟨result, value⟩ := ih (n / 2) (by omega) next squared
        simp only [zero, odd, ↓reduceIte, half, pow_one]
        exact ⟨result, by rw [value, product, square, mul_assoc]⟩
      · obtain ⟨result, value⟩ := ih (n / 2) (by omega) ha squared
        have even : n % 2 = 0 := by omega
        simp only [zero, odd, ↓reduceIte]
        exact ⟨result, by rw [value, square, half, even, pow_zero, one_mul]⟩

/-- Exponents of one base add up, also where the base is zero and none of them is negative. -/
theorem zpow_add_of_nonneg {K : Type*} [Field K] {x : K} {m n : ℤ} (hm : x = 0 → 0 ≤ m)
    (hn : x = 0 → 0 ≤ n) : x ^ (m + n) = x ^ m * x ^ n := by
  by_cases zero : x = 0
  · obtain ⟨a, rfl⟩ := Int.eq_ofNat_of_zero_le (hm zero)
    obtain ⟨b, rfl⟩ := Int.eq_ofNat_of_zero_le (hn zero)
    exact_mod_cast pow_add x a b
  · exact zpow_add₀ zero m n

namespace ComplexNumeral

def IsExact (z : ComplexNumeral) : Prop := z.re.isExact ∧ z.im.isExact

theorem exists_exact {z : ComplexNumeral} (h : z.IsExact) : ∃ r s, z = ⟨.exact r, .exact s⟩ := by
  obtain ⟨re, im⟩ := z
  obtain ⟨r, rfl⟩ := Numeral.exists_exact h.1
  obtain ⟨s, rfl⟩ := Numeral.exists_exact h.2
  exact ⟨r, s, rfl⟩

@[simp] theorem isExact_mk (r s : Rat) : IsExact ⟨.exact r, .exact s⟩ := ⟨rfl, rfl⟩

section

variable {K : Type*} [Field K]

/-- The number that a complex numeral is with `i` as the imaginary unit. -/
def val (i : K) (z : ComplexNumeral) : K := z.re.val K + z.im.val K * i

@[simp] theorem val_mk (i : K) (r s : Rat) : val i ⟨.exact r, .exact s⟩ = r + s * i := rfl

@[simp] theorem isExact_ofReal (r : Rat) : (ofReal (.exact r)).IsExact := ⟨rfl, rfl⟩

@[simp] theorem val_ofReal (i : K) (r : Rat) : val i (ofReal (.exact r)) = r := by
  simp [ofReal, val]

variable {i : K} {z w : ComplexNumeral}

theorem val_eq_zero_of_isZero (h : z.IsExact) (zero : z.isZero = true) : val i z = 0 := by
  obtain ⟨r, s, rfl⟩ := exists_exact h
  simp only [isZero, Bool.and_eq_true, Numeral.isZero_exact] at zero
  simp [zero]

variable [CharZero K]

theorem add_spec (hz : z.IsExact) (hw : w.IsExact) :
    (z.add w).IsExact ∧ val i (z.add w) = val i z + val i w := by
  obtain ⟨r, s, rfl⟩ := exists_exact hz
  obtain ⟨t, u, rfl⟩ := exists_exact hw
  refine ⟨⟨rfl, rfl⟩, ?_⟩
  simp only [add, Numeral.add_exact, val_mk, Rat.cast_add]
  ring

theorem sub_spec (hz : z.IsExact) (hw : w.IsExact) :
    (z.sub w).IsExact ∧ val i (z.sub w) = val i z - val i w := by
  obtain ⟨r, s, rfl⟩ := exists_exact hz
  obtain ⟨t, u, rfl⟩ := exists_exact hw
  refine ⟨⟨rfl, rfl⟩, ?_⟩
  simp only [sub, Numeral.sub_exact, val_mk, Rat.cast_sub]
  ring

theorem mul_spec (unit : i * i = -1) (hz : z.IsExact) (hw : w.IsExact) :
    (z.mul w).IsExact ∧ val i (z.mul w) = val i z * val i w := by
  obtain ⟨r, s, rfl⟩ := exists_exact hz
  obtain ⟨t, u, rfl⟩ := exists_exact hw
  refine ⟨⟨rfl, rfl⟩, ?_⟩
  simp only [mul, Numeral.mul_exact, Numeral.sub_exact, Numeral.add_exact, val_mk, Rat.cast_sub,
    Rat.cast_add, Rat.cast_mul]
  linear_combination (-(s : K) * u) * unit

theorem norm_ne_zero {t u : Rat} (nonzero : ¬(t = 0 ∧ u = 0)) : t * t + u * u ≠ 0 := by
  intro sum
  exact nonzero ⟨by nlinarith [mul_self_nonneg t, mul_self_nonneg u],
    by nlinarith [mul_self_nonneg t, mul_self_nonneg u]⟩

theorem div_spec (unit : i * i = -1) (hz : z.IsExact) (hw : w.IsExact)
    (nonzero : w.isZero = false) :
    (z.div w).IsExact ∧ val i (z.div w) * val i w = val i z := by
  obtain ⟨r, s, rfl⟩ := exists_exact hz
  obtain ⟨t, u, rfl⟩ := exists_exact hw
  have norm : t * t + u * u ≠ 0 := by
    refine norm_ne_zero fun zero => ?_
    simp [isZero, zero.1, zero.2, Numeral.isZero] at nonzero
  have cast : (t : K) ^ 2 + u ^ 2 ≠ 0 := by
    rw [sq, sq]
    exact_mod_cast norm
  simp only [div, Numeral.mul_exact, Numeral.add_exact, Numeral.sub_exact, Numeral.div_exact norm]
  refine ⟨⟨rfl, rfl⟩, ?_⟩
  simp only [val_mk, Rat.cast_div, Rat.cast_add, Rat.cast_sub, Rat.cast_mul]
  field_simp
  linear_combination (s * t * u - r * u * u : K) * unit

/-- Powers by repeated squaring, and their reciprocals, are those of the field. -/
theorem pow?_spec (unit : i * i = -1) {n : Int} (hz : z.IsExact) (bound : val i z = 0 → 0 ≤ n)
    (h : z.pow? n = some w) : w.IsExact ∧ val i w = val i z ^ n := by
  have one : val i .one = 1 := by simp [ComplexNumeral.one, ofReal, val]
  have start : IsExact .one := ⟨rfl, rfl⟩
  obtain ⟨exactly, value⟩ := powerOnto_spec (P := IsExact) (φ := val i)
    (fun a b ha hb => mul_spec unit ha hb) n.natAbs start hz
  rw [one, one_mul] at value
  simp only [pow?, Option.ite_none_left_eq_some, Option.some.injEq] at h
  obtain ⟨-, rfl⟩ := h
  split
  · rename_i negative
    have nonzero : val i z ≠ 0 := fun zero => by
      have := bound zero
      omega
    have raised : val i z ^ n.natAbs ≠ 0 := pow_ne_zero _ nonzero
    have notZero : (powerOnto mul .one z n.natAbs).isZero = false := by
      by_contra zero
      rw [Bool.not_eq_false] at zero
      exact raised (value ▸ val_eq_zero_of_isZero exactly zero)
    obtain ⟨defined, product⟩ := div_spec (z := .one) unit start exactly notZero
    refine ⟨defined, ?_⟩
    rw [value, one] at product
    have exponent : n = -(n.natAbs : ℤ) := by omega
    rw [exponent, zpow_neg, zpow_natCast, Int.natAbs_neg, Int.natAbs_natCast]
    exact eq_inv_of_mul_eq_one_left product
  · rename_i nonnegative
    refine ⟨exactly, ?_⟩
    have exponent : n = (n.natAbs : ℤ) := by omega
    rw [value]
    conv_rhs => rw [exponent, zpow_natCast]

end

end ComplexNumeral

namespace Reading

variable {K : Type*} [Field K] {R : Reading K}

/-- The value of the imaginary unit, where there is one. -/
def imaginary (R : Reading K) : K := R.unit?.getD 0

/-- The square of the imaginary unit is minus one. -/
def LawfulUnit (R : Reading K) : Prop := ∀ i, R.unit? = some i → i * i = -1

theorem ofAssignment_lawfulUnit (ident : String → K) : (ofAssignment ident).LawfulUnit :=
  fun _ h => nomatch h

theorem LawfulUnit.square (law : R.LawfulUnit) (unit : R.unit?.isSome = true) :
    R.imaginary * R.imaginary = -1 := by
  obtain ⟨i, found⟩ := Option.isSome_iff_exists.mp unit
  simpa [imaginary, found] using law i found

theorem val_complex_eq (z : ComplexNumeral) : R.val (.complex z) = z.val R.imaginary := rfl

/-! ## Constants read off expressions -/

theorem rational?_spec [CharZero K] {e : Expr} {r : Rat} (h : e.rational? = some r) :
    R.Defined e ∧ R.val e = r := by
  unfold Expr.rational? at h
  split at h
  · cases h
    exact ⟨rfl, rfl⟩
  · rename_i a b
    simp only [Option.ite_none_left_eq_some, Option.some.injEq] at h
    obtain ⟨nonzero, rfl⟩ := h
    simp [nonzero]
  · cases h

theorem numeral?_spec [CharZero K] {e : Expr} {x : Numeral} (h : R.Defined e)
    (found : e.numeral? = some x) : ∃ r, x = .exact r ∧ R.val e = r := by
  unfold Expr.numeral? at found
  split at found
  · cases found
    obtain ⟨r, rfl⟩ := Numeral.exists_exact h
    exact ⟨r, rfl, rfl⟩
  · obtain ⟨r, rational, rfl⟩ := Option.map_eq_some_iff.mp found
    exact ⟨r, rfl, (rational?_spec rational).2⟩

theorem complex?_spec [CharZero K] {e : Expr} {z : ComplexNumeral} (h : R.Defined e)
    (found : e.complex? = some z) : z.IsExact ∧ z.val R.imaginary = R.val e := by
  unfold Expr.complex? at found
  split at found
  · cases found
    exact ⟨h.2, rfl⟩
  · obtain ⟨x, numeral, rfl⟩ := Option.map_eq_some_iff.mp found
    obtain ⟨r, rfl, value⟩ := numeral?_spec h numeral
    exact ⟨ComplexNumeral.isExact_ofReal r, by rw [value, ComplexNumeral.val_ofReal]⟩

theorem unit_of_isComplex {e : Expr} (h : R.Defined e) (complex : e.isComplex = true) :
    R.unit?.isSome = true := by
  cases e with
  | complex z => exact h.1
  | number _ | ident _ | call _ _ | node _ _ => cases complex

theorem ofComplex_spec [CharZero K] {z : ComplexNumeral} (unit : R.unit?.isSome = true)
    (h : z.IsExact) : R.Defined (.ofComplex z) ∧ R.val (.ofComplex z) = z.val R.imaginary := by
  obtain ⟨r, s, rfl⟩ := ComplexNumeral.exists_exact h
  unfold Expr.ofComplex
  split
  · rename_i real
    have zero : s = 0 := by simpa [ComplexNumeral.isReal] using real
    simp [Expr.ofNumeral, zero]
  · exact ⟨⟨unit, rfl, rfl⟩, rfl⟩

/-- The quotient of two constants. -/
theorem constantQuotient?_keeps [CharZero K] (law : R.LawfulUnit) {a b c : Expr}
    (found : Expr.constantQuotient? a b = some c) : R.Keeps (.div a b) c := by
  intro h
  obtain ⟨ha, hb, nonzero⟩ := (defined_div a b).mp h
  unfold Expr.constantQuotient? at found
  split at found
  · rename_i complex
    have unit : R.unit?.isSome = true := by
      rcases Bool.or_eq_true _ _ ▸ complex with left | right
      · exact unit_of_isComplex ha left
      · exact unit_of_isComplex hb right
    split at found
    · rename_i z w left right
      simp only [Option.ite_none_left_eq_some, Option.some.injEq, Bool.not_eq_true] at found
      obtain ⟨notZero, rfl⟩ := found
      obtain ⟨exactLeft, valueLeft⟩ := complex?_spec ha left
      obtain ⟨exactRight, valueRight⟩ := complex?_spec hb right
      obtain ⟨exactly, product⟩ :=
        ComplexNumeral.div_spec (law.square unit) exactLeft exactRight notZero
      obtain ⟨defined, value⟩ := ofComplex_spec unit exactly
      refine ⟨defined, ?_⟩
      rw [value, val_div, eq_div_iff nonzero, ← valueRight, product, valueLeft]
    · cases found
  · cases found

end Reading

end SymbolicAlgebra
