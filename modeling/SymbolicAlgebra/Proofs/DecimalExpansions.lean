import Mathlib.Data.Nat.Factorization.Basic
import SymbolicAlgebra.Proofs.ReadBack

/-! Decimal expansions of rationals: which of them end, and that those that end are exact, as short
as can be and read back. -/
namespace SymbolicAlgebra

/-- Some power of ten is a multiple just where two and five are the only prime factors. -/
theorem exists_dvd_ten_pow_iff {d : Nat} (nonzero : d ≠ 0) :
    (∃ k, d ∣ 10 ^ k) ↔ ∀ p, p.Prime → p ∣ d → p = 2 ∨ p = 5 := by
  constructor
  · rintro ⟨k, divides⟩ p prime factor
    have ten : p ∣ 2 * 5 := prime.dvd_of_dvd_pow (factor.trans divides)
    rcases prime.dvd_mul.mp ten with two | five
    · exact .inl ((Nat.prime_dvd_prime_iff_eq prime Nat.prime_two).mp two)
    · exact .inr ((Nat.prime_dvd_prime_iff_eq prime Nat.prime_five).mp five)
  · intro only
    have ten : 10 ^ d ≠ 0 := pow_ne_zero d (by decide)
    refine ⟨d, (Nat.factorization_prime_le_iff_dvd nonzero ten).mp fun p prime => ?_⟩
    rw [Nat.factorization_pow, Finsupp.smul_apply, smul_eq_mul]
    rcases Nat.eq_zero_or_pos (d.factorization p) with none | some
    · rw [none]
      exact Nat.zero_le _
    · have factor : p ∣ 10 := by
        rcases only p prime (Nat.dvd_of_factorization_pos some.ne') with rfl | rfl <;> decide
      calc d.factorization p ≤ d := (Nat.factorization_lt p nonzero).le
        _ ≤ d * Nat.factorization 10 p :=
          Nat.le_mul_of_pos_right d (prime.factorization_pos_of_dvd (by decide) factor)

theorem isDecimal_of_finiteDecimal? {r : Rat} (h : (finiteDecimal? r).isSome = true) :
    IsDecimal r := by
  cases found : decimalPlaces? r.den with
  | none => simp [finiteDecimal?, found] at h
  | some places => exact ⟨places, dvd_of_decimalPlaces? found⟩

/-- An expansion ends just where the denominator has no prime factor but two and five. -/
theorem isSome_finiteDecimal?_iff (r : Rat) :
    (finiteDecimal? r).isSome = true ↔ ∀ p, p.Prime → p ∣ r.den → p = 2 ∨ p = 5 := by
  rw [← exists_dvd_ten_pow_iff r.den_nz]
  constructor
  · exact isDecimal_of_finiteDecimal?
  · intro decimal
    obtain ⟨t, _, _, found, -⟩ := finiteDecimal?_spec decimal
    rw [found]
    rfl

theorem parse?_finiteDecimal? {r : Rat} {t : String} (h : finiteDecimal? r = some t) :
    Expr.parse? t = some (.number (.exact r)) := by
  have decimal : IsDecimal r := isDecimal_of_finiteDecimal? (by rw [h]; rfl)
  have text : (Expr.number (.exact r)).text = t := by simp only [Expr.text, Numeral.text, h]
  have read := Expr.parse?_text (e := .number (.exact r)) ⟨r, rfl, decimal⟩
  rwa [text] at read

/-- A rational has a decimal expansion that ends just where its denominator has no prime factor but
two and five. The expansion is then a sign and digits that denote the magnitude, at least one of
them before the point and no zero the last one after it; no other rational has the same one, and it
is read back as the rational. -/
theorem finiteDecimal?_exact (r : Rat) :
    ((finiteDecimal? r).isSome = true ↔ ∀ p, p.Prime → p ∣ r.den → p = 2 ∨ p = 5) ∧
      ∀ t, finiteDecimal? r = some t →
        (Numeral.exact r).text = t ∧
        (∃ whole frac, IsDecimalText whole frac |r| ∧ frac.getLast? ≠ some '0' ∧
          t.toList = (if r < 0 then ['-'] else []) ++ decimalChars whole frac) ∧
        (∀ s, finiteDecimal? s = some t → s = r) ∧
        Expr.parse? t = some (.number (.exact r)) := by
  refine ⟨isSome_finiteDecimal?_iff r, fun t found => ?_⟩
  have read := parse?_finiteDecimal? found
  have text : (Numeral.exact r).text = t := by simp only [Numeral.text, found]
  obtain ⟨t', whole, frac, again, digits, last, chars⟩ :=
    finiteDecimal?_spec (isDecimal_of_finiteDecimal? (by rw [found]; rfl))
  obtain rfl : t = t' := Option.some.inj (found.symm.trans again)
  refine ⟨text, ⟨whole, frac, digits, last, chars⟩, fun s other => ?_, read⟩
  have same := (parse?_finiteDecimal? other).symm.trans read
  simpa using same

/-- Below one a zero stands before the point, and the zero of three fortieths at the end does not:
`0.075`. -/
theorem finiteDecimal?_exact_of_three_fortieths :
    finiteDecimal? (mkRat (-3) 40) = some "-0.075" ∧
      Expr.parse? "-0.075" = some (.number (.exact (mkRat (-3) 40))) := by
  have found : finiteDecimal? (mkRat (-3) 40) = some "-0.075" := by decide +kernel
  exact ⟨found, ((finiteDecimal?_exact (mkRat (-3) 40)).2 _ found).2.2.2⟩

end SymbolicAlgebra
