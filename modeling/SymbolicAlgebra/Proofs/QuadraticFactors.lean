import Mathlib.RingTheory.Int.Basic
import SymbolicAlgebra.Proofs.ChangeFlags
import SymbolicAlgebra.Proofs.IntegerPolynomials
import SymbolicAlgebra.Proofs.IntegerRoots

open Polynomial

/-! Quadratics with integer coefficients: they are split into linear factors over the integers where
their discriminant is a square, and only there. -/
namespace SymbolicAlgebra

/-! ## A discriminant of zero -/

/-- Without a common divisor, the outer coefficients of a square are squares. -/
theorem squares_of_primitive {a b c : ℤ} (positive : 0 < a)
    (primitive : ∀ d : ℤ, d ∣ a → d ∣ b → d ∣ c → IsUnit d) (zero : b ^ 2 = 4 * a * c) :
    ∃ p q : ℤ, 0 < p ∧ 0 ≤ q ∧ IsCoprime p q ∧ p ^ 2 = a ∧ q ^ 2 = c := by
  obtain ⟨m, rfl⟩ : (2 : ℤ) ∣ b := by
    have even : (2 : ℤ) ∣ b ^ 2 := ⟨2 * a * c, by rw [zero]; ring⟩
    exact Int.prime_two.dvd_of_dvd_pow even
  have product : a * c = m ^ 2 := by linarith
  have coprime : IsCoprime a c := by
    -- A common divisor of the outer coefficients divides the half of the middle one.
    have square : (Int.gcd a c : ℤ) ^ 2 ∣ m ^ 2 := by
      rw [← product, sq]
      exact mul_dvd_mul (Int.gcd_dvd_left ..) (Int.gcd_dvd_right ..)
    have half : (Int.gcd a c : ℤ) ∣ m := (Int.pow_dvd_pow_iff two_ne_zero).mp square
    have unit := primitive (Int.gcd a c) (Int.gcd_dvd_left ..) (half.mul_left 2)
      (Int.gcd_dvd_right ..)
    exact Int.isCoprime_iff_gcd_eq_one.mpr (Nat.isUnit_iff.mp (Int.ofNat_isUnit.mp unit))
  have nonneg : 0 ≤ c := by
    by_contra below
    nlinarith [sq_nonneg m]
  obtain ⟨p, lead⟩ := Int.sq_of_isCoprime coprime product
  obtain ⟨q, last⟩ := Int.sq_of_isCoprime coprime.symm ((mul_comm c a).trans product)
  have leadSquare : p ^ 2 = a := by
    rcases lead with same | opposite
    · exact same.symm
    · nlinarith [sq_nonneg p]
  have lastSquare : q ^ 2 = c := by
    rcases last with same | opposite
    · exact same.symm
    · nlinarith [sq_nonneg q]
  have nonzero : p ≠ 0 := by
    rintro rfl
    omega
  refine ⟨|p|, |q|, abs_pos.mpr nonzero, abs_nonneg q, ?_, by rw [sq_abs, leadSquare],
    by rw [sq_abs, lastSquare]⟩
  rw [← leadSquare, ← lastSquare, IsCoprime.pow_iff two_pos two_pos] at coprime
  exact IsCoprime.abs_abs coprime

/-- The common divisor that is taken out, with the sign of the leading coefficient. -/
def signedContent (a b c : ℤ) : ℤ :=
  if a < 0 then -(Int.gcd (Int.gcd a b) c : ℤ) else Int.gcd (Int.gcd a b) c

theorem signedContent_dvd_iff {a b c y : ℤ} :
    signedContent a b c ∣ y ↔ (Int.gcd (Int.gcd a b) c : ℤ) ∣ y := by
  unfold signedContent
  split
  · exact neg_dvd
  · exact Iff.rfl

theorem signedContent_dvd (a b c : ℤ) :
    signedContent a b c ∣ a ∧ signedContent a b c ∣ b ∧ signedContent a b c ∣ c := by
  simp only [signedContent_dvd_iff]
  have inner : (Int.gcd (Int.gcd a b) c : ℤ) ∣ Int.gcd a b := Int.gcd_dvd_left ..
  exact ⟨inner.trans (Int.gcd_dvd_left ..), inner.trans (Int.gcd_dvd_right ..),
    Int.gcd_dvd_right ..⟩

theorem dvd_signedContent {a b c d : ℤ} (ha : d ∣ a) (hb : d ∣ b) (hc : d ∣ c) :
    d ∣ signedContent a b c := by
  have common : d ∣ (Int.gcd (Int.gcd a b) c : ℤ) := Int.dvd_coe_gcd (Int.dvd_coe_gcd ha hb) hc
  unfold signedContent
  split
  · exact common.neg_right
  · exact common

theorem signedContent_ne_zero {a : ℤ} (lead : a ≠ 0) (b c : ℤ) : signedContent a b c ≠ 0 :=
  ne_zero_of_dvd_ne_zero lead (signedContent_dvd a b c).1

/-- The sign is taken off a negative leading coefficient. -/
theorem signedContent_sign {a b c u : ℤ} (lead : a ≠ 0) (product : a = signedContent a b c * u) :
    0 < u := by
  have nonneg : 0 ≤ (Int.gcd (Int.gcd a b) c : ℤ) := Int.natCast_nonneg _
  by_contra below
  unfold signedContent at product
  split at product
  · have := mul_nonneg_of_nonpos_of_nonpos (neg_nonpos.mpr nonneg) (not_lt.mp below)
    omega
  · have := mul_nonpos_of_nonneg_of_nonpos nonneg (not_lt.mp below)
    omega

/-- A quadratic with the discriminant zero is its content times a square, as far as the outer
coefficients go. -/
theorem squares_of_discriminant_zero {a b c : ℤ} (lead : a ≠ 0) (zero : b ^ 2 = 4 * a * c) :
    ∃ p q : ℤ, 0 < p ∧ 0 ≤ q ∧ IsCoprime p q ∧ signedContent a b c * p ^ 2 = a ∧
      signedContent a b c * q ^ 2 = c := by
  obtain ⟨⟨u, hu⟩, ⟨v, hv⟩, ⟨w, hw⟩⟩ := signedContent_dvd a b c
  have nonzero := signedContent_ne_zero lead b c
  have primitive (d : ℤ) (hdu : d ∣ u) (hdv : d ∣ v) (hdw : d ∣ w) : IsUnit d := by
    have part {y z : ℤ} (hy : y = signedContent a b c * z) (divides : d ∣ z) :
        signedContent a b c * d ∣ y := hy ▸ mul_dvd_mul_left _ divides
    have whole := dvd_signedContent (part hu hdu) (part hv hdv) (part hw hdw)
    exact isUnit_of_dvd_one ((mul_dvd_mul_iff_left nonzero).mp (by rwa [mul_one]))
  have divided : v ^ 2 = 4 * u * w := by
    refine mul_left_cancel₀ (pow_ne_zero 2 nonzero) ?_
    linear_combination zero - (b + signedContent a b c * v) * hv + 4 * c * hu +
      4 * signedContent a b c * u * hw
  obtain ⟨p, q, positive, nonneg, coprime, leadSquare, lastSquare⟩ :=
    squares_of_primitive (signedContent_sign lead hu) primitive divided
  exact ⟨p, q, positive, nonneg, coprime, by rw [leadSquare, ← hu], by rw [lastSquare, ← hw]⟩

/-! ## Factored quadratics -/

/-- The product of the factors and an integer, which is left out where it is one. -/
def scaledProduct (k : ℤ) (factors : List Expr) : Expr :=
  .product (if k = 1 then factors else .ofInt k :: factors)

/-- Two linear factors or the square of one, each with coprime integer coefficients. -/
inductive LinearFactors (x : String) : List Expr → Prop where
  | pair {p q s t : ℤ} (first : 0 < p) (firstCoprime : IsCoprime p q) (second : 0 < s)
      (secondCoprime : IsCoprime s t) : LinearFactors x [linearTree x p q, linearTree x s t]
  | square {p q : ℤ} (positive : 0 < p) (coprime : IsCoprime p q) :
      LinearFactors x [.pow (linearTree x p q) (.ofInt 2)]

/-- An integer times linear factors with integer coefficients, with the values of the quadratic. -/
def IsQuadraticFactoring (x : String) (a b c : ℤ) (e : Expr) : Prop :=
  ∃ k factors, LinearFactors x factors ∧ e = scaledProduct k factors ∧
    ∀ R : Reading ℚ, R.Defined e ∧ R.val e = a * R.ident x ^ 2 + b * R.ident x + c

theorem ofInt_signedContent (a b c : ℤ) :
    (if (Numeral.ofInt a).isNegative then (Numeral.ofInt (Int.gcd (Int.gcd a b) c)).neg
      else .ofInt (Int.gcd (Int.gcd a b) c)) = .ofInt (signedContent a b c) := by
  simp only [Numeral.isNegative_ofInt, signedContent, Numeral.neg_ofInt]
  split <;> rfl

/-- A quadratic with the discriminant zero is a multiple of a square. -/
theorem exists_multipleOfSquare {a b c : ℤ} (x : String) (lead : a ≠ 0)
    (zero : b ^ 2 = 4 * a * c) :
    ∃ square, multipleOfSquare? x (.ofInt a) (.ofInt b) (.ofInt c) = some square ∧
      IsQuadraticFactoring x a b c square := by
  obtain ⟨p, q, positive, nonneg, coprime, leadSquare, lastSquare⟩ :=
    squares_of_discriminant_zero lead zero
  have nonzero := signedContent_ne_zero lead b c
  obtain ⟨s, signed, same⟩ : ∃ s,
      (if ((Numeral.ofInt b).div (.ofInt (signedContent a b c))).isNegative then
        (Numeral.ofInt q).neg else .ofInt q) = .ofInt s ∧ (s = q ∨ s = -q) := by
    split
    · exact ⟨-q, Numeral.neg_ofInt q, .inr rfl⟩
    · exact ⟨q, rfl, .inl rfl⟩
  have signedCoprime : IsCoprime p s := by
    rcases same with rfl | rfl
    · exact coprime
    · exact coprime.neg_right
  have found : multipleOfSquare? x (.ofInt a) (.ofInt b) (.ofInt c) =
      some (scaledProduct (signedContent a b c) [.pow (linearTree x p s) (.ofInt 2)]) := by
    simp only [multipleOfSquare?, Numeral.gcd?_ofInt, Option.bind_eq_bind, Option.bind_some,
      ofInt_signedContent, Numeral.div_ofInt nonzero leadSquare, Numeral.div_ofInt nonzero lastSquare,
      Numeral.sqrt?_ofInt_sq positive.le, Numeral.sqrt?_ofInt_sq nonneg, signed,
      linearSum_eq_linearTree x positive, Numeral.isOne_ofInt, scaledProduct]
    split <;> rfl
  refine ⟨_, found, _, _, .square positive signedCoprime, rfl, fun R => ?_⟩
  have discriminant : (b * b - 4 * a * c : ℚ) = 0 := by
    have := congrArg (Int.cast (R := ℚ)) zero
    push_cast at this
    linarith
  simpa using Reading.multipleOfSquare?_spec (R := R) discriminant found

/-! ## Two roots -/

theorem aeval_quadratic (a b c : ℤ) (v : ℚ) :
    Polynomial.aeval v (integerPolynomial [a, b, c]) = a * v ^ 2 + b * v + c := by
  simp [integerPolynomial, add_comm, add_assoc]

/-- The denominators of both roots divide the leading coefficient together. -/
theorem den_mul_den_dvd {a b c : ℤ} (lead : a ≠ 0) {r s : ℚ}
    (roots : ∀ v : ℚ, (a : ℚ) * (v - r) * (v - s) = a * v ^ 2 + b * v + c) :
    (r.den * s.den : ℤ) ∣ a := by
  have unit : IsUnit (Polynomial.C ((r.den : ℚ) * s.den)) :=
    Polynomial.isUnit_C.mpr (isUnit_iff_ne_zero.mpr (mul_ne_zero (Nat.cast_ne_zero.mpr r.den_nz)
      (Nat.cast_ne_zero.mpr s.den_nz)))
  have whole : (integerPolynomial [a, b, c]).map (Int.castRingHom ℚ) =
      Polynomial.C (a : ℚ) * ((Polynomial.X - Polynomial.C r) * (Polynomial.X - Polynomial.C s)) := by
    refine Polynomial.funext fun v => ?_
    rw [Polynomial.eval_map, ← algebraMap_int_eq, ← Polynomial.aeval_def, aeval_quadratic, ← roots]
    simp [mul_assoc]
  have divides : linearFactor r * linearFactor s ∣ integerPolynomial [a, b, c] := by
    rw [IsPrimitive.Int.dvd_iff_map_cast_dvd_map_cast _ _
      ((linearFactor_isPrimitive r).mul (linearFactor_isPrimitive s)), Polynomial.map_mul,
      map_linearFactor, map_linearFactor, mul_mul_mul_comm, ← Polynomial.C_mul, unit.mul_left_dvd,
      whole]
    exact dvd_mul_left _ _
  obtain ⟨g, product⟩ := divides
  rw [← leadingCoeff_integerPolynomial [b, c] lead, product, Polynomial.leadingCoeff_mul,
    Polynomial.leadingCoeff_mul, leadingCoeff_linearFactor, leadingCoeff_linearFactor]
  exact dvd_mul_right _ _

/-- A quadratic with rational roots is an integer times the linear factors of its roots. -/
theorem splitQuadratic_isQuadraticFactoring {a b c : ℤ} (x : String) (lead : a ≠ 0) {r s : ℚ}
    (roots : ∀ v : ℚ, (a : ℚ) * (v - r) * (v - s) = a * v ^ 2 + b * v + c) :
    IsQuadraticFactoring x a b c (splitQuadratic x (.ofInt a) r s) := by
  obtain ⟨k, product⟩ := den_mul_den_dvd lead roots
  have dens : (r.den * s.den : ℤ) ≠ 0 :=
    mul_ne_zero (Nat.cast_ne_zero.mpr r.den_nz) (Nat.cast_ne_zero.mpr s.den_nz)
  have scale : (Numeral.ofInt a).div ((Numeral.ofInt r.den).mul (.ofInt s.den)) = .ofInt k := by
    rw [Numeral.mul_ofInt, Numeral.div_ofInt dens product.symm]
  have coprime (v : ℚ) : IsCoprime (v.den : ℤ) (-v.num) := v.isCoprime_num_den.symm.neg_right
  have positive (v : ℚ) : (0 : ℤ) < v.den := Int.natCast_pos.mpr v.den_pos
  refine ⟨k, _, .pair (positive r) (coprime r) (positive s) (coprime s), ?_, fun R => ?_⟩
  · simp only [splitQuadratic, scale, Numeral.isOne_ofInt, factorOfRoot_eq_linearTree, scaledProduct]
    split <;> rfl
  · obtain ⟨defined, value⟩ := Reading.splitQuadratic_spec (R := R) x a r s
    exact ⟨defined, value.trans (by simpa using roots (R.ident x))⟩

/-- The quotients of the quadratic formula are exact. -/
theorem exact_root {a : ℤ} (lead : a ≠ 0) (n : ℤ) :
    (Numeral.ofInt n).div ((Numeral.ofInt 2).mul (.ofInt a)) = .exact (n / (2 * a)) := by
  have twice : ((2 * a : ℤ) : ℚ) ≠ 0 := Int.cast_ne_zero.mpr (mul_ne_zero two_ne_zero lead)
  rw [Numeral.mul_ofInt, Numeral.ofInt, Numeral.ofInt, Numeral.div_exact twice, Int.cast_mul,
    Int.cast_ofNat]

theorem splitQuadratic_of_discriminant {a b c w : ℤ} (x : String) (lead : a ≠ 0)
    (square : w ^ 2 = b ^ 2 - 4 * a * c) :
    IsQuadraticFactoring x a b c (splitQuadratic x (.ofInt a) ((-b + w : ℤ) / (2 * a))
      ((-b - w : ℤ) / (2 * a))) := by
  have twice : (2 * a : ℚ) ≠ 0 := mul_ne_zero two_ne_zero (Int.cast_ne_zero.mpr lead)
  have discriminant : (w : ℚ) ^ 2 = b * b - 4 * a * c := by
    rw [← sq]
    exact_mod_cast square
  refine splitQuadratic_isQuadraticFactoring x lead fun v => ?_
  simpa using Reading.quadratic_of_roots v twice discriminant

/-! ## Factoring -/

theorem factorQuadraticExactly_ofIntegers {e : Expr} {x : String} {a b c : ℤ}
    (only : e.unknowns = [x]) (read : e.coefficients? true = some ([a, b, c].map .ofInt))
    (last : c ≠ 0) :
    (∃ factored, IsQuadraticFactoring x a b c factored ∧ factorQuadraticExactly e = .new factored ∧
        IsSquare (b ^ 2 - 4 * a * c)) ∨
      ¬IsSquare (b ^ 2 - 4 * a * c) ∧ factorQuadraticExactly e = .same e := by
  have lead : a ≠ 0 := lead_ne_zero read (List.cons_ne_nil b [c])
  have discriminant : ((Numeral.ofInt b).mul (.ofInt b)).sub
      (((Numeral.ofInt 4).mul (.ofInt a)).mul (.ofInt c)) = .ofInt (b ^ 2 - 4 * a * c) := by
    rw [Numeral.mul_ofInt, Numeral.mul_ofInt, Numeral.mul_ofInt, Numeral.sub_ofInt, sq]
  unfold factorQuadraticExactly
  rw [unknownAndCoefficients?_eq_some.mpr ⟨only, read⟩, List.map_cons, List.map_cons, List.map_cons,
    List.map_nil]
  dsimp only
  rw [if_neg ((Numeral.isZero_ofInt c).not.mpr last), discriminant]
  rcases lt_trichotomy (b ^ 2 - 4 * a * c) 0 with negative | zero | positive
  · rw [if_neg ((Numeral.isZero_ofInt _).not.mpr negative.ne),
      if_pos ((Numeral.isNegative_ofInt _).mpr negative)]
    exact .inr ⟨fun square => negative.not_ge square.nonneg, rfl⟩
  · obtain ⟨square, found, factored⟩ := exists_multipleOfSquare x lead (sub_eq_zero.mp zero)
    rw [if_pos ((Numeral.isZero_ofInt _).mpr zero), found, zero]
    exact .inl ⟨square, factored, rfl, IsSquare.zero⟩
  · rw [if_neg ((Numeral.isZero_ofInt _).not.mpr positive.ne'),
      if_neg ((Numeral.isNegative_ofInt _).not.mpr positive.not_gt)]
    by_cases square : IsSquare (b ^ 2 - 4 * a * c)
    · obtain ⟨w, power, found⟩ := Numeral.sqrt?_of_isSquare square
      refine .inl ⟨_, splitQuadratic_of_discriminant x lead power, ?_, square⟩
      rw [found]
      dsimp only
      rw [Numeral.neg_ofInt, Numeral.add_ofInt, Numeral.sub_ofInt, exact_root lead,
        exact_root lead]
      rfl
    · cases found : (Numeral.ofInt (b ^ 2 - 4 * a * c)).sqrt? with
      | none => exact .inr ⟨square, rfl⟩
      | some root => exact (square (Numeral.isSquare_of_sqrt? found)).elim

end SymbolicAlgebra
