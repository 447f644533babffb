import Mathlib.Analysis.SpecialFunctions.Arcosh
import Mathlib.Analysis.SpecialFunctions.Arsinh
import Mathlib.Analysis.SpecialFunctions.Artanh
import Mathlib.Analysis.SpecialFunctions.Trigonometric.Arctan
import Mathlib.Analysis.SpecialFunctions.Trigonometric.Inverse
import SymbolicAlgebra.Proofs.CallIdentities
import SymbolicAlgebra.Proofs.CallRules

/-! The known functions on the real numbers, each where it has a value there, and that evaluating
calls keeps values for them and for every other reading with their laws. -/
namespace SymbolicAlgebra

open DifferentialReading (quotient? quotient?_eq_some)

namespace Reading

/-! ## Symmetry and reciprocals of ratios -/

section Ratios

variable {K : Type*} [Field K] {sine cosine : K → K} {q : Ratio} {x v : K}

theorem quotient?_neg_left {a b : K} (h : quotient? a b = some v) :
    quotient? (-a) b = some (-v) := by
  obtain ⟨nonzero, rfl⟩ := quotient?_eq_some.mp h
  exact quotient?_eq_some.mpr ⟨nonzero, neg_div b a⟩

theorem quotient?_neg_right {a b : K} (h : quotient? a b = some v) :
    quotient? a (-b) = some (-v) := by
  obtain ⟨nonzero, rfl⟩ := quotient?_eq_some.mp h
  exact quotient?_eq_some.mpr ⟨neg_ne_zero.mpr nonzero, div_neg a⟩

theorem ratioOf_neg_of_odd (odd : sine (-x) = -sine x) (even : cosine (-x) = cosine x)
    (symmetry : q.isEven = false) (h : ratioOf sine cosine q x = some v) :
    ratioOf sine cosine q (-x) = some (-v) := by
  cases q with
  | cos | sec => cases symmetry
  | sin =>
    cases h
    simp [ratioOf, odd]
  | tan => simpa [ratioOf, odd, even] using quotient?_neg_left h
  | csc => simpa [ratioOf, odd] using quotient?_neg_right h
  | cot => simpa [ratioOf, odd, even] using quotient?_neg_right h

theorem ratioOf_neg_of_even (even : cosine (-x) = cosine x) (symmetry : q.isEven = true) :
    ratioOf sine cosine q (-x) = ratioOf sine cosine q x := by
  cases q with
  | sin | tan | csc | cot => cases symmetry
  | cos | sec => simp only [ratioOf, even]

/-- Where a ratio is not zero, its reciprocal has a value. -/
theorem ratioOf_reciprocal (nonzero : v ≠ 0) (h : ratioOf sine cosine q x = some v) :
    ratioOf sine cosine q.reciprocal x = some v⁻¹ := by
  cases q with
  | sin | cos =>
    cases h
    exact quotient?_eq_some.mpr ⟨nonzero, one_div _⟩
  | csc | sec =>
    obtain ⟨-, rfl⟩ := quotient?_eq_some.mp h
    simp [ratioOf, Ratio.reciprocal]
  | tan | cot =>
    obtain ⟨-, rfl⟩ := quotient?_eq_some.mp h
    exact quotient?_eq_some.mpr ⟨(div_ne_zero_iff.mp nonzero).1, (inv_div _ _).symm⟩

end Ratios

end Reading

/-! ## Functions of a real number -/

open Classical in
/-- A real number under a condition. -/
noncomputable def valueIf (p : Prop) (v : ℝ) : Option ℝ := if p then some v else none

@[simp] theorem valueIf_eq_some {p : Prop} {v w : ℝ} : valueIf p v = some w ↔ p ∧ v = w := by
  by_cases h : p <;> simp [valueIf, h]

/-- Six inverse functions from three: that of a reciprocal function at `x` is that of the function
at `1 / x`. -/
noncomputable def inversesOf (sine cosine tangent : ℝ → Option ℝ) : Ratio → ℝ → Option ℝ
  | .sin, x => sine x
  | .cos, x => cosine x
  | .tan, x => tangent x
  | .csc, x => (quotient? 1 x).bind sine
  | .sec, x => (quotient? 1 x).bind cosine
  | .cot, x => (quotient? 1 x).bind tangent

theorem inversesOf_neg {sine cosine tangent : ℝ → Option ℝ} {q : Ratio} {x v : ℝ}
    (oddSine : ∀ {x v}, sine x = some v → sine (-x) = some (-v))
    (oddTangent : ∀ {x v}, tangent x = some v → tangent (-x) = some (-v))
    (symmetry : q.isEven = false) (h : inversesOf sine cosine tangent q x = some v) :
    inversesOf sine cosine tangent q (-x) = some (-v) := by
  cases q with
  | cos | sec => cases symmetry
  | sin => exact oddSine h
  | tan => exact oddTangent h
  | csc =>
    obtain ⟨r, reciprocal, value⟩ := Option.bind_eq_some_iff.mp h
    exact Option.bind_eq_some_iff.mpr
      ⟨-r, Reading.quotient?_neg_right reciprocal, oddSine value⟩
  | cot =>
    obtain ⟨r, reciprocal, value⟩ := Option.bind_eq_some_iff.mp h
    exact Option.bind_eq_some_iff.mpr
      ⟨-r, Reading.quotient?_neg_right reciprocal, oddTangent value⟩

/-- A known function of a real number, where its value is real. -/
noncomputable def NamedFunction.real? : NamedFunction → ℝ → Option ℝ
  | .circular q, x => Reading.ratioOf Real.sin Real.cos q x
  | .arcCircular q, x =>
    inversesOf (fun x => valueIf (|x| ≤ 1) (Real.arcsin x))
      (fun x => valueIf (|x| ≤ 1) (Real.arccos x)) (fun x => some (Real.arctan x)) q x
  | .hyperbolic q, x => Reading.ratioOf Real.sinh Real.cosh q x
  | .arcHyperbolic q, x =>
    inversesOf (fun x => some (Real.arsinh x)) (fun x => valueIf (1 ≤ x) (Real.arcosh x))
      (fun x => valueIf (|x| < 1) (Real.artanh x)) q x
  | .ln, x => valueIf (0 < x) (Real.log x)
  | .log, x => valueIf (0 < x) (Real.log x / Real.log 10)
  | .abs, x => some |x|
  | .sqrt, x => valueIf (0 ≤ x) √x
  | .sgn, x => some (SignType.sign x : ℝ)
  | .other _, _ => none

/-- Calls on real numbers. The functions without rules of their own are read by `others`, and so is
every call with a number of arguments that its function does not have. -/
noncomputable def realCall? (others : NamedFunction → List ℝ → Option ℝ) :
    NamedFunction → List ℝ → Option ℝ
  | .other name, us => others (.other name) us
  | f, [u] => f.real? u
  | .log, [b, u] => do quotient? (← NamedFunction.real? .ln u) (← NamedFunction.real? .ln b)
  | f, us => others f us

theorem realCall?_of_isKnown {others : NamedFunction → List ℝ → Option ℝ} {f : NamedFunction}
    (known : f.isKnown) (u : ℝ) : realCall? others f [u] = f.real? u := by
  cases f with
  | other name => cases known
  | circular | arcCircular | hyperbolic | arcHyperbolic | ln | log | abs | sqrt | sgn => rfl

theorem realCall?_log_eq_some (others : NamedFunction → List ℝ → Option ℝ) {b u v : ℝ} :
    realCall? others .log [b, u] = some v ↔
      0 < u ∧ 0 < b ∧ Real.log b ≠ 0 ∧ Real.log u / Real.log b = v := by
  simp [realCall?, NamedFunction.real?, Option.bind_eq_some_iff, and_assoc]

theorem artanh_neg_arg {x : ℝ} (inside : |x| < 1) : Real.artanh (-x) = -Real.artanh x := by
  have image : Real.tanh (Real.artanh x) = x := Real.tanh_artanh (abs_lt.mp inside)
  calc Real.artanh (-x) = Real.artanh (Real.tanh (-Real.artanh x)) := by rw [Real.tanh_neg, image]
    _ = -Real.artanh x := Real.artanh_tanh _

theorem NamedFunction.real?_neg_of_isOdd {f : NamedFunction} {x v : ℝ} (odd : f.isOdd)
    (h : f.real? x = some v) : f.real? (-x) = some (-v) := by
  cases f with
  | ln | log | abs | sqrt | sgn | other => cases odd
  | circular q =>
    exact Reading.ratioOf_neg_of_odd (Real.sin_neg x) (Real.cos_neg x) (by simpa [isOdd] using odd) h
  | hyperbolic q =>
    exact Reading.ratioOf_neg_of_odd (Real.sinh_neg x) (Real.cosh_neg x)
      (by simpa [isOdd] using odd) h
  | arcCircular q =>
    refine inversesOf_neg ?_ ?_ (by simpa [isOdd] using odd) h
    · intro x v value
      obtain ⟨inside, rfl⟩ := valueIf_eq_some.mp value
      exact valueIf_eq_some.mpr ⟨by rwa [abs_neg], Real.arcsin_neg x⟩
    · intro x v value
      cases value
      rw [Real.arctan_neg]
  | arcHyperbolic q =>
    refine inversesOf_neg ?_ ?_ (by simpa [isOdd] using odd) h
    · intro x v value
      cases value
      rw [Real.arsinh_neg]
    · intro x v value
      obtain ⟨inside, rfl⟩ := valueIf_eq_some.mp value
      exact valueIf_eq_some.mpr ⟨by rwa [abs_neg], artanh_neg_arg inside⟩

theorem NamedFunction.real?_neg_of_isEven {f : NamedFunction} (even : f.isEven) (x : ℝ) :
    f.real? (-x) = f.real? x := by
  cases f with
  | arcCircular | arcHyperbolic | ln | log | sqrt | sgn | other => cases even
  | circular q => exact Reading.ratioOf_neg_of_even (Real.cos_neg x) even
  | hyperbolic q => exact Reading.ratioOf_neg_of_even (Real.cosh_neg x) even
  | abs => exact congrArg some (abs_neg x)

/-! ## Evaluated calls -/

namespace Reading

/-- The real numbers with the functions known there, and `others` for all other calls. -/
noncomputable def onReals (ident : String → ℝ) (others : NamedFunction → List ℝ → Option ℝ) :
    Reading ℝ where
  ident := ident
  unit? := none
  call := realCall? others
  integral _ _ := none

theorem onReals_call {ident : String → ℝ} {others : NamedFunction → List ℝ → Option ℝ}
    {f : NamedFunction} (known : f.isKnown) (u : ℝ) :
    (onReals ident others).call f [u] = f.real? u :=
  realCall?_of_isKnown known u

theorem real?_zero {R : Reading ℝ} {f : NamedFunction} {e : Expr} {v : ℝ}
    (special : f.atZero? = some e) (h : f.real? 0 = some v) : v = R.val e := by
  unfold NamedFunction.atZero? at special
  split at special <;> cases special <;>
    simp_all [NamedFunction.real?, ratioOf, inversesOf]

theorem onReals_evaluationLaws {ident : String → ℝ} (base : ident "e" = Real.exp 1)
    (others : NamedFunction → List ℝ → Option ℝ) : (onReals ident others).EvaluationLaws where
  odd {f x v} odd found := by
    have known : f.isKnown := by cases f <;> first | rfl | cases odd
    rw [onReals_call known] at found ⊢
    exact NamedFunction.real?_neg_of_isOdd odd found
  even {f x v} even found := by
    have known : f.isKnown := by cases f <;> first | rfl | cases even
    rw [onReals_call known] at found ⊢
    rw [NamedFunction.real?_neg_of_isEven even, found]
  reciprocal {f g x v} reciprocal found nonzero := by
    unfold NamedFunction.reciprocal? at reciprocal
    split at reciprocal <;> cases reciprocal <;> exact ratioOf_reciprocal nonzero found
  atZero {f e v} special found := by
    have known : f.isKnown := by cases f <;> first | rfl | cases special
    rw [onReals_call known] at found
    exact real?_zero special found
  ln_one found := by
    simpa [eq_comm] using valueIf_eq_some.mp found
  log_one found := by
    simpa [eq_comm] using valueIf_eq_some.mp found
  abs found := by
    cases found
    exact (Rat.cast_abs _).symm
  sqrt nonneg found := by
    obtain ⟨-, rfl⟩ := valueIf_eq_some.mp found
    exact Real.sqrt_mul_self (Rat.cast_nonneg.mpr nonneg)
  sgn {r v} nonzero found := by
    cases found
    split
    · rename_i negative
      simp [sign_neg (Rat.cast_lt_zero.mpr negative)]
    · rename_i nonneg
      have positive : 0 < r := lt_of_le_of_ne (not_lt.mp nonneg) nonzero.symm
      simp [sign_pos (Rat.cast_pos.mpr positive)]
  ln_e found := by
    obtain ⟨-, rfl⟩ := valueIf_eq_some.mp found
    simp [onReals, base]
  ln_power {n v} found := by
    obtain ⟨-, rfl⟩ := valueIf_eq_some.mp found
    simp [onReals, base, Real.log_zpow]
  log_self found := by
    obtain ⟨-, -, nonzero, rfl⟩ := (realCall?_log_eq_some others).mp found
    exact div_self nonzero
  log_of_one found := by
    obtain ⟨-, -, -, rfl⟩ := (realCall?_log_eq_some others).mp found
    simp

/-- Wherever a tree has a value, evaluating its calls keeps it, and so does drawing reciprocal
functions out of its denominators, in every field of characteristic zero and for every reading of
calls with the laws. -/
theorem evaluated_calls_value {K : Type*} [Field K] [CharZero K] {R : Reading K}
    (laws : R.EvaluationLaws) {e : Expr} (h : R.Defined e) :
    (R.Defined (evaluateCalls e).expr ∧ R.val (evaluateCalls e).expr = R.val e) ∧
      R.Defined (normalizeCalls e).expr ∧ R.val (normalizeCalls e).expr = R.val e :=
  ⟨evaluateCalls_keeps laws e h, normalizeCalls_keeps laws e h⟩

/-- Signs in arguments, a cosine below a bar, a logarithm and a root: `x / (y * cos(-y))`,
`sin(-x) * ln(e ^ 3)` and `sqrt(9 / 4) - log(c, c)` at `x = 0`, `y = 1` and `c = 2`. -/
theorem evaluated_calls_value_of_reals :
    let R := onReals (fun name => if name = "e" then Real.exp 1 else if name = "x" then 0 else
      if name = "y" then 1 else 2) fun _ _ => none
    let x : Expr := .ident "x"
    let y : Expr := .ident "y"
    let c : Expr := .ident "c"
    let e : Expr := .sum [.div x (.mul y (.apply .cos y.negate)),
      .mul (.apply .sin x.negate) (.ln (.pow (.ident "e") (.ofInt 3))),
      .sub (.apply .sqrt (.number (.exact (9 / 4)))) (.call .log [c, c])]
    let rest : Expr := .sub (.number (.exact (3 / 2))) .one
    R.EvaluationLaws ∧ R.Defined e ∧
      R.val (.sum [.div x (.mul y (.apply .cos y)),
        .mul (Expr.apply .sin x).negate (.ofInt 3), rest]) = R.val e ∧
      R.val (.sum [.div (.product [x, .apply .sec y]) y,
        .mul (Expr.apply .sin x).negate (.ofInt 3), rest]) = R.val e := by
  intro R x y c e rest
  have laws : R.EvaluationLaws := onReals_evaluationLaws rfl _
  have defined : R.Defined e := by
    have cosine : R.Defined (.apply .cos y.negate) :=
      (defined_apply _ _).mpr ⟨defined_negate (defined_ident _), _, rfl⟩
    have positive : 0 < R.val (.apply .cos y.negate) := by
      rw [val_apply rfl, val_negate (defined_ident _)]
      simpa [R, onReals, y] using Real.cos_one_pos
    have bottom : R.val (.mul y (.apply .cos y.negate)) ≠ 0 := by
      simpa [R, onReals, y] using positive.ne'
    have sine : R.Defined (.apply .sin x.negate) :=
      (defined_apply _ _).mpr ⟨defined_negate (defined_ident _), _, rfl⟩
    have logarithm : R.Defined (.ln (.pow (.ident "e") (.ofInt 3))) := by
      refine (defined_apply _ _).mpr ⟨?_, 3, ?_⟩
      · exact (defined_pow _ _).mpr ⟨defined_ident _, defined_ofInt 3, 3, by simp, fun _ => by simp⟩
      · rw [val_pow, val_ofInt, power_intCast]
        exact valueIf_eq_some.mpr ⟨zpow_pos (Real.exp_pos 1) 3, by simp [R, onReals]⟩
    have root : R.Defined (.apply .sqrt (.number (.exact (9 / 4)))) :=
      (defined_apply _ _).mpr ⟨rfl, _, valueIf_eq_some.mpr ⟨by norm_num, rfl⟩⟩
    have self : R.Defined (.call .log [c, c]) := by
      have base : Real.log 2 ≠ 0 := by norm_num
      have known : R.call .log [R.val c, R.val c] = some 1 := by
        rw [show R.val c = 2 by simp [R, c, onReals]]
        exact (realCall?_log_eq_some fun _ _ => none).mpr ⟨two_pos, two_pos, base, div_self base⟩
      simpa [c] using Option.isSome_iff_exists.mpr ⟨1, known⟩
    simp only [e, defined_sum, List.forall_mem_cons, defined_div, defined_mul, defined_sub]
    exact ⟨⟨defined_ident _, ⟨defined_ident _, cosine⟩, bottom⟩, ⟨sine, logarithm⟩, ⟨root, self⟩,
      List.forall_mem_nil _⟩
  have evaluated : (evaluateCalls e).expr =
      .sum [.div x (.mul y (.apply .cos y)), .mul (Expr.apply .sin x).negate (.ofInt 3), rest] := by
    decide +kernel
  have normalized : (normalizeCalls e).expr =
      .sum [.div (.product [x, .apply .sec y]) y,
        .mul (Expr.apply .sin x).negate (.ofInt 3), rest] := by
    decide +kernel
  obtain ⟨⟨-, first⟩, -, second⟩ := evaluated_calls_value laws defined
  exact ⟨laws, defined, evaluated ▸ first, normalized ▸ second⟩

end Reading

end SymbolicAlgebra
