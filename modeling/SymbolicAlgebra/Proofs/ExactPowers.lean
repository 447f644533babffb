import Mathlib.RingTheory.Coprime.Lemmas
import SymbolicAlgebra.Proofs.IntegerRoots

/-! Exact powers and roots are found wherever the rationals have them. -/
namespace SymbolicAlgebra

/-- A value has a `q`-th root as soon as a power of it has one whose exponent is coprime to `q`. -/
theorem exists_pow_eq_of_pow_eq_zpow {r s : ℚ} {p : ℤ} {q : ℕ} (coprime : IsCoprime p q)
    (nonzero : r ≠ 0) (h : s ^ q = r ^ p) : ∃ t : ℚ, t ^ q = r := by
  obtain ⟨a, b, bezout⟩ := coprime
  refine ⟨s ^ a * r ^ b, ?_⟩
  calc (s ^ a * r ^ b) ^ q = (s ^ q) ^ a * r ^ (b * q) := by
        rw [mul_pow, ← zpow_natCast, ← zpow_natCast, ← zpow_natCast, zpow_comm, zpow_mul]
    _ = r ^ (a * p + b * q) := by
        rw [h, ← zpow_mul, mul_comm p a, zpow_add₀ nonzero]
    _ = r := by rw [bezout, zpow_one]

namespace Numeral

theorem intPower?_of_defined {r : ℚ} {n : ℤ} (bound : n.natAbs ≤ exponentLimit)
    (defined : r = 0 → 0 ≤ n) : intPower? r n = some (.exact (r ^ n)) := by
  have regular : ¬(n < 0 ∧ r = 0) := fun ⟨negative, zero⟩ => (defined zero).not_gt negative
  have power : (if n < 0 then (r.pow n.natAbs).inv else r.pow n.natAbs) = r ^ n := by
    split
    · have exponent : n = -(n.natAbs : ℤ) := by omega
      conv_rhs => rw [exponent, zpow_neg, zpow_natCast]
      rfl
    · have exponent : n = (n.natAbs : ℤ) := by omega
      conv_rhs => rw [exponent, zpow_natCast]
      rfl
  rw [intPower?, if_neg bound.not_gt, if_neg regular]
  exact congrArg (some ∘ exact) power

theorem intPower?_zero {n : ℤ} (bound : n.natAbs ≤ exponentLimit) (negative : n < 0) :
    intPower? 0 n = some .nan := by
  rw [intPower?, if_neg bound.not_gt, if_pos ⟨negative, rfl⟩]

/-- The root is taken before the power, and an integer exponent asks for no root. -/
theorem power?_exact (r : ℚ) {e : ℚ} (bound : e.den < 2 ^ 32) :
    (exact r).power? (.exact e) = (ratRoot? r e.den).bind (intPower? · e.num) := by
  rw [power?, ratPower?]
  split
  · rename_i integer
    rw [integer, (ratRoot?_eq_some_iff one_ne_zero).mpr ⟨pow_one r, fun even => ?_⟩]
    · rfl
    · exact absurd even Nat.not_even_one
  · rw [if_neg (by omega)]
    cases ratRoot? r e.den <;> rfl

/-- Within the limits, a power of an exact numeral is exact where it is defined and the rationals
have the root it asks for. -/
theorem power?_eq_exact_iff {r e s : ℚ} (rootBound : e.den < 2 ^ 32)
    (powerBound : e.num.natAbs ≤ exponentLimit) :
    (exact r).power? (.exact e) = some (.exact s) ↔
      (r = 0 → 0 ≤ e.num) ∧ s ^ e.den = r ^ e.num ∧ (Even e.den → 0 ≤ s) := by
  have positive : e.den ≠ 0 := e.den_nz
  have powers (t : ℚ) : (t ^ e.num) ^ e.den = (t ^ e.den) ^ e.num := by
    rw [← zpow_natCast, ← zpow_natCast, zpow_comm]
  rw [power?_exact r rootBound]
  constructor
  · intro found
    obtain ⟨t, root, power⟩ := Option.bind_eq_some_iff.mp found
    obtain ⟨rfl, sign⟩ := (ratRoot?_eq_some_iff positive).mp root
    have defined : t = 0 → 0 ≤ e.num := by
      rintro rfl
      by_contra negative
      rw [intPower?_zero powerBound (not_le.mp negative)] at power
      cases power
    rw [intPower?_of_defined powerBound defined] at power
    cases power
    exact ⟨fun zero => defined ((pow_eq_zero_iff positive).mp zero), powers t,
      fun even => zpow_nonneg (sign even) _⟩
  · rintro ⟨defined, power, sign⟩
    have exists_root : ∃ t : ℚ, t ^ e.den = r := by
      by_cases zero : r = 0
      · exact ⟨0, by rw [zero, zero_pow positive]⟩
      · exact exists_pow_eq_of_pow_eq_zpow e.isCoprime_num_den zero power
    obtain ⟨t, root⟩ := (exists_ratRoot?_iff positive).mpr exists_root
    obtain ⟨rfl, rootSign⟩ := (ratRoot?_eq_some_iff positive).mp root
    -- the root of the power is found only once
    have given := (ratRoot?_eq_some_iff positive).mpr ⟨power, sign⟩
    have raised := (ratRoot?_eq_some_iff positive).mpr
      ⟨powers t, fun even => zpow_nonneg (rootSign even) e.num⟩
    have value : s = t ^ e.num := Option.some.inj (given.symm.trans raised)
    rw [root, Option.bind_some, intPower?_of_defined powerBound, value]
    rintro rfl
    exact defined (zero_pow positive)

theorem power?_zero {e : ℚ} (rootBound : e.den < 2 ^ 32) (powerBound : e.num.natAbs ≤ exponentLimit)
    (negative : e.num < 0) : (exact 0).power? (.exact e) = some .nan := by
  have root : ratRoot? 0 e.den = some 0 :=
    (ratRoot?_eq_some_iff e.den_nz).mpr ⟨zero_pow e.den_nz, fun _ => le_rfl⟩
  rw [power?_exact 0 rootBound, root, Option.bind_some, intPower?_zero powerBound negative]

theorem root?_eq_some_iff {r : ℚ} {n : ℕ} {x : Numeral} (positive : n ≠ 0) :
    (exact r).root? n = some x ↔ ∃ s, (s ^ n = r ∧ (Even n → 0 ≤ s)) ∧ .exact s = x := by
  rw [root?, Option.map_eq_some_iff]
  simp only [ratRoot?_eq_some_iff positive]

/-- Powers and roots of exact numerals are exact wherever they can be, and right: a power to
`p / q` is the `q`-th root of the `p`-th power, the one that is not negative for even `q`. -/
theorem power?_root?_complete {r e : ℚ} (rootBound : e.den < 2 ^ 32)
    (powerBound : e.num.natAbs ≤ 4096) :
    ((∃ s, (exact r).power? (.exact e) = some (.exact s)) ↔
      (r = 0 → 0 ≤ e.num) ∧ ∃ s : ℚ, s ^ e.den = r ^ e.num) ∧
    (∀ s, (exact r).power? (.exact e) = some (.exact s) →
      s ^ e.den = r ^ e.num ∧ (Even e.den → 0 ≤ s)) ∧
    (r = 0 → e.num < 0 → (exact r).power? (.exact e) = some .nan) ∧
    ∀ n : ℕ, 1 ≤ n →
      ((∃ x, (exact r).root? n = some x) ↔ ∃ s : ℚ, s ^ n = r) ∧
      ∀ x, (exact r).root? n = some x → ∃ s, x = .exact s ∧ s ^ n = r ∧ (Even n → 0 ≤ s) := by
  refine ⟨?_, fun s found => ((power?_eq_exact_iff rootBound powerBound).mp found).2, ?_, ?_⟩
  · simp only [power?_eq_exact_iff rootBound powerBound, exists_and_left, exists_root_iff]
  · rintro rfl
    exact power?_zero rootBound powerBound
  · intro n positive
    have positive : n ≠ 0 := Nat.one_le_iff_ne_zero.mp positive
    refine ⟨⟨?_, ?_⟩, fun x found => ?_⟩
    · rintro ⟨x, found⟩
      obtain ⟨s, ⟨power, -⟩, -⟩ := (root?_eq_some_iff positive).mp found
      exact ⟨s, power⟩
    · intro some_root
      obtain ⟨s, root⟩ := exists_root_iff.mpr some_root
      exact ⟨.exact s, (root?_eq_some_iff positive).mpr ⟨s, root, rfl⟩⟩
    · obtain ⟨s, ⟨power, sign⟩, rfl⟩ := (root?_eq_some_iff positive).mp found
      exact ⟨s, rfl, power, sign⟩

/-- The cube root of `-8 / 27` is negative, its power to `-2` is not. -/
theorem power?_root?_complete_of_negative :
    ((-2 / 3 : ℚ).den < 2 ^ 32 ∧ (-2 / 3 : ℚ).num.natAbs ≤ 4096) ∧
      (exact (-8 / 27)).power? (.exact (-2 / 3)) = some (.exact (9 / 4)) ∧
      (9 / 4 : ℚ) ^ (-2 / 3 : ℚ).den = (-8 / 27) ^ (-2 / 3 : ℚ).num := by
  have rootBound : (-2 / 3 : ℚ).den < 2 ^ 32 := by decide +kernel
  have powerBound : (-2 / 3 : ℚ).num.natAbs ≤ 4096 := by decide +kernel
  have found : (exact (-8 / 27)).power? (.exact (-2 / 3)) = some (.exact (9 / 4)) := by
    decide +kernel
  exact ⟨⟨rootBound, powerBound⟩, found,
    ((power?_root?_complete rootBound powerBound).2.1 _ found).1⟩

end Numeral

end SymbolicAlgebra
