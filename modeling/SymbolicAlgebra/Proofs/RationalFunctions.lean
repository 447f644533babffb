import Mathlib
import SymbolicAlgebra.Proofs.DifferentialReading

/-! Expressions as rational functions of their identifiers, with a partial derivative for a
derivation. Natural powers and square roots have values there. -/
namespace SymbolicAlgebra

namespace DifferentialReading

section Algebraic

variable {K : Type*} [Field K]

open Classical in
noncomputable def naturalPower? (b c : K) : Option K :=
  if h : ∃ n : ℕ, (n : K) = c then some (b ^ h.choose) else none

open Classical in
noncomputable def squareRoot? (u : K) : Option K :=
  if h : ∃ r : K, r ^ 2 = u then some h.choose else none

/-- Natural powers are products, and a square root is one of the two roots. No other power and no
other call has a value. -/
noncomputable def algebraic (D : Derivation ℤ K K) (ident : String → K) :
    DifferentialReading K where
  D := D
  ident := ident
  float? := fun _ => none
  unit? := none
  call?
    | .sqrt, [u] => squareRoot? u
    | _, _ => none
  power? := naturalPower?
  integral? := fun _ _ => none

theorem naturalPower?_eq_some [CharZero K] {b c v : K} :
    naturalPower? b c = some v ↔ ∃ n : ℕ, (n : K) = c ∧ b ^ n = v := by
  unfold naturalPower?
  split
  case isTrue h =>
    rw [Option.some.injEq]
    constructor
    · intro value
      exact ⟨h.choose, h.choose_spec, value⟩
    · rintro ⟨n, hn, rfl⟩
      rw [Nat.cast_injective (h.choose_spec.trans hn.symm)]
  case isFalse h =>
    simp only [reduceCtorEq, false_iff]
    exact fun ⟨n, hn, _⟩ => h ⟨n, hn⟩

theorem sq_of_squareRoot? {u r : K} (h : squareRoot? u = some r) : r ^ 2 = u := by
  unfold squareRoot? at h
  split at h
  case isTrue root =>
    cases h
    exact root.choose_spec
  case isFalse => cases h

theorem exists_squareRoot? (r : K) : ∃ s, squareRoot? (r ^ 2) = some s := by
  have root : ∃ s : K, s ^ 2 = r ^ 2 := ⟨r, rfl⟩
  exact ⟨root.choose, dif_pos root⟩

variable {D : Derivation ℤ K K} {ident : String → K}

theorem algebraic_call {f : NamedFunction} {us : List K} {v : K}
    (h : (algebraic D ident).call? f us = some v) : f = .sqrt ∧ ∃ u, us = [u] ∧ v ^ 2 = u := by
  unfold algebraic at h
  dsimp only at h
  split at h
  · exact ⟨rfl, _, rfl, sq_of_squareRoot? h⟩
  · cases h

theorem D_pow (b : K) (n : ℕ) : D (b ^ n) = n * b ^ (n - 1) * D b := by
  rw [D.leibniz_pow, nsmul_eq_mul, smul_eq_mul, mul_assoc]

theorem algebraic_lawful [CharZero K] {x : String} (self : D (ident x) = 1)
    (other : ∀ name, name ≠ x → D (ident name) = 0) : (algebraic D ident).Lawful x where
  ident_self := self
  ident_other := other
  float_constant := by simp [algebraic]
  float_sub_one := by simp [algebraic]
  unit_constant := by simp [algebraic]
  call_constant := by
    intro f us v constant hv
    obtain ⟨rfl, u, rfl, root⟩ := algebraic_call hv
    have zero : D (v ^ 2) = 0 := root ▸ constant u (by simp)
    rw [D_pow, mul_eq_zero] at zero
    rcases zero with zero | zero
    · have : v = 0 := by simpa using zero
      simp [this]
    · exact zero
  power_constant := by
    intro b c v hb hc hv
    obtain ⟨n, -, rfl⟩ := naturalPower?_eq_some.mp hv
    show D (b ^ n) = 0
    rw [D_pow, show D b = 0 from hb, mul_zero]
  integral_constant := by simp [algebraic]
  call_chain := by
    intro f u v s hv hs
    obtain ⟨rfl, u', same, rfl⟩ := algebraic_call hv
    cases same
    simp only [slope?, hv, Option.bind_eq_bind, Option.bind_some, quotient?_eq_some] at hs
    obtain ⟨nonzero, rfl⟩ := hs
    show D v = 1 / (2 * v) * D (v ^ 2)
    rw [D_pow]
    have : v ≠ 0 := right_ne_zero_of_mul nonzero
    field_simp
    simp
  log_ten := by
    intro u v hv
    cases (algebraic_call hv).1
  log_base := by
    intro b u v hv
    cases (algebraic_call hv).1
  power_natural := by
    intro b v n _ hv
    obtain ⟨m, same, rfl⟩ := naturalPower?_eq_some.mp hv
    rw [Nat.cast_injective same]
  power_rule := by
    intro b c v lowered _ hv hl
    obtain ⟨n, rfl, rfl⟩ := naturalPower?_eq_some.mp hv
    obtain ⟨m, less, rfl⟩ := naturalPower?_eq_some.mp hl
    have next : n = m + 1 := by
      have : (n : K) = (m + 1 : ℕ) := by
        push_cast
        rw [less]
        ring
      exact Nat.cast_injective this
    show D (b ^ n) = n * b ^ m * D b
    rw [D_pow, next, Nat.add_sub_cancel]
  exponential_rule := by
    intro b c v l _ _ hl
    cases (algebraic_call hl).1
  euler_rule := by
    intro c v distinct hv
    obtain ⟨n, rfl, rfl⟩ := naturalPower?_eq_some.mp hv
    show D (ident "e" ^ n) = ident "e" ^ n * D n
    rw [D_pow, other "e" distinct.symm, D.map_natCast, mul_zero, mul_zero]
  general_power_rule := by
    intro b c v l _ _ hl
    cases (algebraic_call hl).1

end Algebraic

end DifferentialReading

open scoped TensorProduct KaehlerDifferential

/-! ## Fractions of polynomials in all identifiers -/

namespace RationalFunction

variable (K : Type*) [Field K] [Algebra (MvPolynomial String ℤ) K]
  [IsFractionRing (MvPolynomial String ℤ) K]

theorem formallyEtale : Algebra.FormallyEtale (MvPolynomial String ℤ) K :=
  .of_isLocalization (nonZeroDivisors (MvPolynomial String ℤ))

noncomputable def variableNamed (name : String) : K :=
  algebraMap (MvPolynomial String ℤ) K (.X name)

/-- The partial derivative of polynomials, carried over to fractions. -/
noncomputable def partialDerivative (x : String) : Derivation ℤ K K :=
  have := formallyEtale K
  let onPolynomials : Derivation ℤ (MvPolynomial String ℤ) K :=
    (Algebra.linearMap (MvPolynomial String ℤ) K).compDer (MvPolynomial.pderiv x)
  (onPolynomials.liftKaehlerDifferential.liftBaseChange K ∘ₗ
    (KaehlerDifferential.tensorKaehlerEquivOfFormallyEtale ℤ (MvPolynomial String ℤ)
      K).symm.toLinearMap).compDer (KaehlerDifferential.D ℤ K)

theorem partialDerivative_variableNamed (x name : String) :
    partialDerivative K x (variableNamed K name) = if name = x then 1 else 0 := by
  have := formallyEtale K
  have onPolynomials : partialDerivative K x (variableNamed K name) =
      algebraMap (MvPolynomial String ℤ) K (MvPolynomial.pderiv x (.X name)) := by
    simp [partialDerivative, variableNamed,
      KaehlerDifferential.tensorKaehlerEquivOfFormallyEtale_symm_D_algebraMap]
  rw [onPolynomials, MvPolynomial.pderiv_X]
  by_cases same : name = x <;> simp [same]

theorem variableNamed_ne_zero (name : String) : variableNamed K name ≠ 0 := by
  have injective := IsFractionRing.injective (MvPolynomial String ℤ) K
  exact (map_ne_zero_iff _ injective).mpr (MvPolynomial.X_ne_zero name)

/-- Expressions as rational functions, derived by `x`. -/
noncomputable def reading (x : String) : DifferentialReading K :=
  .algebraic (partialDerivative K x) (variableNamed K)

theorem charZero : CharZero K :=
  charZero_of_injective_algebraMap (IsFractionRing.injective (MvPolynomial String ℤ) K)

theorem reading_lawful (x : String) : (reading K x).Lawful x := by
  have := charZero K
  refine DifferentialReading.algebraic_lawful ?_ ?_
  · simp [partialDerivative_variableNamed]
  · intro name distinct
    simp [partialDerivative_variableNamed, distinct]

end RationalFunction

end SymbolicAlgebra
