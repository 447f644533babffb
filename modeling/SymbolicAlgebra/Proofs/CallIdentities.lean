import Mathlib.Analysis.SpecialFunctions.Complex.Log
import SymbolicAlgebra.Proofs.Collection
import SymbolicAlgebra.Proofs.DifferentialReading

/-! The identities between circular functions and between hyperbolic ones, as they are between
partial functions, and the values that arithmetic keeps under them. -/
namespace SymbolicAlgebra

namespace Reading

variable {K : Type*} [Field K]

/-! ## Identities -/

/-- The identities of six ratios, those of the circular functions with `s = 1` and those of the
hyperbolic ones with `s = -1`. Where both factors of a product have values, so has what the product
is. -/
structure RatioIdentities (ratio : Ratio → K → Option K) (s : K) : Prop where
  reciprocal : ∀ {q : Ratio} {x v w : K}, ratio q x = some v → ratio q.reciprocal x = some w →
    v * w = 1
  tan_mul_cos : ∀ {x v w : K}, ratio .tan x = some v → ratio .cos x = some w →
    ratio .sin x = some (v * w)
  cot_mul_sin : ∀ {x v w : K}, ratio .cot x = some v → ratio .sin x = some w →
    ratio .cos x = some (v * w)
  sin_mul_sec : ∀ {x v w : K}, ratio .sin x = some v → ratio .sec x = some w →
    ratio .tan x = some (v * w)
  cos_mul_csc : ∀ {x v w : K}, ratio .cos x = some v → ratio .csc x = some w →
    ratio .cot x = some (v * w)
  sec_mul_cot : ∀ {x v w : K}, ratio .sec x = some v → ratio .cot x = some w →
    ratio .csc x = some (v * w)
  csc_mul_tan : ∀ {x v w : K}, ratio .csc x = some v → ratio .tan x = some w →
    ratio .sec x = some (v * w)
  cos_sq_add_sin_sq : ∀ {x v w : K}, ratio .cos x = some v → ratio .sin x = some w →
    v ^ 2 + s * w ^ 2 = 1
  sec_sq : ∀ {x v w : K}, ratio .sec x = some v → ratio .tan x = some w → v ^ 2 = 1 + s * w ^ 2
  csc_sq : ∀ {x v w : K}, ratio .csc x = some v → ratio .cot x = some w → v ^ 2 = w ^ 2 + s
  /-- The two sides of an identity between squares have values at the same places. -/
  domain : ∀ x, ((ratio .cos x).isSome ↔ (ratio .sin x).isSome) ∧
    ((ratio .sec x).isSome ↔ (ratio .tan x).isSome) ∧
    ((ratio .csc x).isSome ↔ (ratio .cot x).isSome)

/-- The circular and the hyperbolic functions have their identities, and `e ^ ln(x)` is `x`. -/
structure CallIdentities (R : Reading K) : Prop where
  circular : RatioIdentities (fun q x => R.call (.circular q) [x]) 1
  hyperbolic : RatioIdentities (fun q x => R.call (.hyperbolic q) [x]) (-1)
  exponential : ∀ {x : K} {n : ℤ}, R.call .ln [x] = some (n : K) → (R.ident "e" = 0 → 0 ≤ n) →
    R.ident "e" ^ n = x

/-! ## The ratios of two functions -/

open DifferentialReading (quotient? quotient?_eq_some)

/-- The six ratios of two functions, each where it is no division by zero. -/
noncomputable def ratioOf (sine cosine : K → K) : Ratio → K → Option K
  | .sin, x => some (sine x)
  | .cos, x => some (cosine x)
  | .tan, x => quotient? (sine x) (cosine x)
  | .csc, x => quotient? 1 (sine x)
  | .sec, x => quotient? 1 (cosine x)
  | .cot, x => quotient? (cosine x) (sine x)

theorem isSome_quotient? {a b : K} : (quotient? a b).isSome ↔ b ≠ 0 := by
  simp [Option.isSome_iff_exists]

theorem mul_of_quotient? {a b v : K} (h : quotient? a b = some v) : v * b = a := by
  obtain ⟨nonzero, rfl⟩ := quotient?_eq_some.mp h
  exact div_mul_cancel₀ a nonzero

theorem quotient?_of_reciprocal {a b v : K} (h : quotient? 1 b = some v) :
    quotient? a b = some (a * v) := by
  obtain ⟨nonzero, rfl⟩ := quotient?_eq_some.mp h
  exact quotient?_eq_some.mpr ⟨nonzero, (mul_one_div a b).symm⟩

theorem reciprocal_of_quotient? {a b v w : K} (hv : quotient? 1 a = some v)
    (hw : quotient? a b = some w) : quotient? 1 b = some (v * w) := by
  obtain ⟨nonzero, -⟩ := quotient?_eq_some.mp hw
  refine quotient?_eq_some.mpr ⟨nonzero, (eq_div_of_mul_eq nonzero ?_).symm⟩
  rw [mul_assoc, mul_of_quotient? hw, mul_of_quotient? hv]

/-- From the one identity between two functions follow those between all their ratios. -/
theorem ratioIdentities_ratioOf {sine cosine : K → K} {s : K}
    (unit : ∀ x, cosine x ^ 2 + s * sine x ^ 2 = 1) :
    RatioIdentities (ratioOf sine cosine) s where
  reciprocal {q} x v w hv hw := by
    cases q with
    | sin | cos =>
      cases hv
      rw [mul_comm]
      exact mul_of_quotient? hw
    | csc | sec =>
      cases hw
      exact mul_of_quotient? hv
    | tan | cot =>
      obtain ⟨nonzero, rfl⟩ := quotient?_eq_some.mp hv
      obtain ⟨nonzero', rfl⟩ := quotient?_eq_some.mp hw
      field_simp
  tan_mul_cos hv hw := by
    cases hw
    exact congrArg some (mul_of_quotient? hv).symm
  cot_mul_sin hv hw := by
    cases hw
    exact congrArg some (mul_of_quotient? hv).symm
  sin_mul_sec hv hw := by
    cases hv
    exact quotient?_of_reciprocal hw
  cos_mul_csc hv hw := by
    cases hv
    exact quotient?_of_reciprocal hw
  sec_mul_cot hv hw := reciprocal_of_quotient? hv hw
  csc_mul_tan hv hw := reciprocal_of_quotient? hv hw
  cos_sq_add_sin_sq {x} _ _ hv hw := by
    cases hv
    cases hw
    exact unit x
  sec_sq {x} _ _ hv hw := by
    obtain ⟨nonzero, rfl⟩ := quotient?_eq_some.mp hv
    obtain ⟨-, rfl⟩ := quotient?_eq_some.mp hw
    field_simp
    linear_combination -unit x
  csc_sq {x} _ _ hv hw := by
    obtain ⟨nonzero, rfl⟩ := quotient?_eq_some.mp hv
    obtain ⟨-, rfl⟩ := quotient?_eq_some.mp hw
    field_simp
    linear_combination -unit x
  domain x := by
    simp only [ratioOf, isSome_quotient?, Option.isSome_some, and_self]

/-! ## The laws that terms and factors are collected by -/

namespace RatioIdentities

variable {ratio : Ratio → K → Option K} {s x v w : K}

theorem mul_eq_one (h : RatioIdentities ratio s) {p q : Ratio} (pair : p.times? q = some none)
    (hp : ratio p x = some v) (hq : ratio q x = some w) : v * w = 1 := by
  have reciprocal : q = p.reciprocal := by
    cases p <;> cases q <;> first | rfl | cases pair
  subst reciprocal
  exact h.reciprocal hp hq

theorem mul_eq_ratio (h : RatioIdentities ratio s) {p q t : Ratio}
    (pair : p.times? q = some (some t)) (hp : ratio p x = some v) (hq : ratio q x = some w) :
    ratio t x = some (v * w) := by
  unfold Ratio.times? at pair
  split at pair <;> cases pair
  · exact h.tan_mul_cos hp hq
  · exact h.cot_mul_sin hp hq
  · exact h.sin_mul_sec hp hq
  · exact h.cos_mul_csc hp hq
  · exact h.sec_mul_cot hp hq
  · exact h.csc_mul_tan hp hq

end RatioIdentities

theorem CallIdentities.collectionLaws {R : Reading K} (h : R.CallIdentities) :
    R.CollectionLaws where
  cancel {f g} _ _ _ pair hf hg := by
    unfold NamedFunction.times? at pair
    split at pair
    · obtain ⟨t, times, same⟩ := Option.map_eq_some_iff.mp pair
      cases Option.map_eq_none_iff.mp same
      exact h.circular.mul_eq_one times hf hg
    · obtain ⟨t, times, same⟩ := Option.map_eq_some_iff.mp pair
      cases Option.map_eq_none_iff.mp same
      exact h.hyperbolic.mul_eq_one times hf hg
    · cases pair
  reduce {f g k} _ _ _ pair hf hg := by
    unfold NamedFunction.times? at pair
    split at pair
    · obtain ⟨t, times, same⟩ := Option.map_eq_some_iff.mp pair
      obtain ⟨q, rfl, rfl⟩ := Option.map_eq_some_iff.mp same
      exact h.circular.mul_eq_ratio times hf hg
    · obtain ⟨t, times, same⟩ := Option.map_eq_some_iff.mp pair
      obtain ⟨q, rfl, rfl⟩ := Option.map_eq_some_iff.mp same
      exact h.hyperbolic.mul_eq_ratio times hf hg
    · cases pair
  squares {f g s} x v w pair hf hg := by
    unfold NamedFunction.complementSign? at pair
    split at pair <;> cases pair <;> push_cast
    · linear_combination h.circular.cos_sq_add_sin_sq hg hf
    · linear_combination h.hyperbolic.cos_sq_add_sin_sq hf hg
    · linear_combination h.hyperbolic.sec_sq hg hf
    · linear_combination -h.hyperbolic.csc_sq hg hf
    · linear_combination h.circular.sec_sq hf hg
    · linear_combination h.circular.csc_sq hf hg
  domain {f g s} x pair := by
    unfold NamedFunction.complementSign? at pair
    split at pair <;> cases pair
    · exact (h.circular.domain x).1.symm
    · exact (h.hyperbolic.domain x).1
    · exact (h.hyperbolic.domain x).2.1.symm
    · exact (h.hyperbolic.domain x).2.2.symm
    · exact (h.circular.domain x).2.1
    · exact (h.circular.domain x).2.2
  exponential := h.exponential

/-- Wherever a tree has a value, arithmetic at every node gives a tree with the same one, for every
reading of calls that has the identities. -/
theorem collectLike_value [CharZero K] {R : Reading K} (only : R.OnlyArithmetic)
    (unit : R.LawfulUnit) (identities : R.CallIdentities) {e : Expr} (h : R.Defined e) :
    R.Defined (collectLike e).expr ∧ R.val (collectLike e).expr = R.val e :=
  collectLike_keeps only unit identities.collectionLaws e h

/-- The complex numbers with the functions known there, and the principal logarithm. -/
noncomputable def complexReading (ident : String → ℂ) : Reading ℂ where
  ident := ident
  unit? := some Complex.I
  call
    | .circular q, [x] => ratioOf Complex.sin Complex.cos q x
    | .hyperbolic q, [x] => ratioOf Complex.sinh Complex.cosh q x
    | .ln, [x] => if x = 0 then none else some (Complex.log x)
    | _, _ => none
  integral _ _ := none

theorem complexReading_identities {ident : String → ℂ} (base : ident "e" = Complex.exp 1) :
    (complexReading ident).CallIdentities where
  circular := ratioIdentities_ratioOf fun x => by
    rw [one_mul]
    exact Complex.cos_sq_add_sin_sq x
  hyperbolic := ratioIdentities_ratioOf fun x => by
    linear_combination Complex.cosh_sq_sub_sinh_sq x
  exponential {x n} found _ := by
    simp only [complexReading, Option.ite_none_left_eq_some, Option.some.injEq] at found
    obtain ⟨nonzero, logarithm⟩ := found
    calc ident "e" ^ n = Complex.exp (Complex.log x) := by
          rw [base, ← Complex.exp_int_mul, mul_one, logarithm]
      _ = x := Complex.exp_log nonzero

/-- The sum `i * cosh(x) * i * sech(x) + 2 * tan(x)^2 + 3 + e^ln(y)` at `x = 0` and `y = 1`: the
constants leave `2`, which makes a secant of the tangent. -/
theorem collectLike_value_of_identities :
    let R := complexReading fun name =>
      if name = "e" then Complex.exp 1 else if name = "x" then 0 else 1
    let x : Expr := .ident "x"
    let i : Expr := .complex ⟨.zero, .one⟩
    let e : Expr := .sum [.product [i, .call .cosh [x], i, .call .sech [x]],
      .mul (.ofInt 2) (.pow (.call .tan [x]) (.ofInt 2)), .ofInt 3,
      .pow (.ident "e") (.call .ln [.ident "y"])]
    R.OnlyArithmetic ∧ R.LawfulUnit ∧ R.CallIdentities ∧ R.Defined e ∧
      R.val (.add (.mul (.ofInt 2) (.pow (.call .sec [x]) (.ofInt 2))) (.ident "y")) = R.val e := by
  intro R x i e
  have only : R.OnlyArithmetic := fun _ _ => rfl
  have unit : R.LawfulUnit := fun j found => by
    cases found
    exact Complex.I_mul_I
  have identities : R.CallIdentities := complexReading_identities rfl
  have defined : R.Defined e := by
    have constant : R.Defined i := ⟨rfl, rfl, rfl⟩
    have cosh : R.Defined (.call .cosh [x]) := by simp [R, x, complexReading, ratioOf]
    have sech : R.Defined (.call .sech [x]) := by
      simp [R, x, complexReading, ratioOf, isSome_quotient?]
    have tan : R.Defined (.call .tan [x]) := by
      simp [R, x, complexReading, ratioOf, isSome_quotient?]
    have ln : R.Defined (.call .ln [.ident "y"]) := by simp [R, complexReading]
    have exponent : ((0 : ℤ) : ℂ) = R.val (.call .ln [.ident "y"]) := by simp [R, complexReading]
    have square : ((2 : ℤ) : ℂ) = R.val (.ofInt 2) := by simp
    simp only [e, defined_sum, List.forall_mem_cons, defined_product, defined_mul, defined_pow]
    exact ⟨⟨constant, cosh, constant, sech, List.forall_mem_nil _⟩,
      ⟨defined_ofInt 2, tan, defined_ofInt 2, 2, square, fun _ => zero_le_two⟩, defined_ofInt 3,
      ⟨defined_ident _, ln, 0, exponent, fun _ => le_rfl⟩, List.forall_mem_nil _⟩
  have result : (collectLike e).expr =
      .add (.mul (.ofInt 2) (.pow (.call .sec [x]) (.ofInt 2))) (.ident "y") := by
    decide +kernel
  exact ⟨only, unit, identities, defined, result ▸ (collectLike_value only unit identities defined).2⟩

end Reading

end SymbolicAlgebra
