import Mathlib.Analysis.SpecialFunctions.Trigonometric.ArctanDeriv
import Mathlib.Analysis.SpecialFunctions.Trigonometric.InverseDeriv
import SymbolicAlgebra.Calculus.Elementary
import SymbolicAlgebra.Proofs.RatioSlopes
import SymbolicAlgebra.Proofs.RealCurves

/-! The antiderivatives of the known functions of the symbol, and of some squares and products of
them. -/
namespace SymbolicAlgebra

namespace RealReading

open Filter Topology
open DifferentialReading (value?_negate_apply)
open SymbolicAlgebra.Reading (ratioOf)

variable {R : RealReading} {x : String} {t u v w : ℝ}

/-! ## Values of calls and of what the table is built with -/

section Values

variable (q : Ratio)

@[simp] theorem reading_circular :
    (R.reading x t).call? (.circular q) [u] = ratioOf Real.sin Real.cos q u := rfl

@[simp] theorem reading_hyperbolic :
    (R.reading x t).call? (.hyperbolic q) [u] = ratioOf Real.sinh Real.cosh q u := rfl

@[simp] theorem reading_arctan :
    (R.reading x t).call? (.arcCircular .tan) [u] = some (Real.arctan u) := rfl

@[simp] theorem reading_arcsin :
    (R.reading x t).call? (.arcCircular .sin) [u] = valueIf (|u| ≤ 1) (Real.arcsin u) := rfl

@[simp] theorem reading_arccos :
    (R.reading x t).call? (.arcCircular .cos) [u] = valueIf (|u| ≤ 1) (Real.arccos u) := rfl

@[simp] theorem reading_arsinh :
    (R.reading x t).call? (.arcHyperbolic .sin) [u] = some (Real.arsinh u) := rfl

@[simp] theorem reading_arcosh :
    (R.reading x t).call? (.arcHyperbolic .cos) [u] = valueIf (1 ≤ u) (Real.arcosh u) := rfl

@[simp] theorem reading_artanh :
    (R.reading x t).call? (.arcHyperbolic .tan) [u] = valueIf (|u| < 1) (Real.artanh u) := rfl

@[simp] theorem reading_ln : (R.reading x t).call? .ln [u] = valueIf (0 < u) (Real.log u) := rfl

@[simp] theorem reading_log :
    (R.reading x t).call? .log [u] = valueIf (0 < u) (Real.log u / Real.log 10) := rfl

@[simp] theorem reading_abs : (R.reading x t).call? .abs [u] = some |u| := rfl

@[simp] theorem reading_sqrt : (R.reading x t).call? .sqrt [u] = valueIf (0 ≤ u) √u := rfl

@[simp] theorem reading_sgn : (R.reading x t).call? .sgn [u] = some (SignType.sign u : ℝ) := rfl

@[simp] theorem power?_ofNat (b : ℝ) (n : ℕ) [n.AtLeastTwo] :
    R.power? b ofNat(n) = some (b ^ (ofNat(n) : ℕ)) :=
  power?_natCast b n

@[simp] theorem value?_squared {e : Expr} :
    (R.reading x t).value? e.squared = some v ↔
      ∃ u, (R.reading x t).value? e = some u ∧ u ^ 2 = v := by
  simp [Expr.squared]

@[simp] theorem value?_half {e : Expr} :
    (R.reading x t).value? e.half = some v ↔
      ∃ u, (R.reading x t).value? e = some u ∧ u / 2 = v := by
  simp [Expr.half]

@[simp] theorem value?_logOfAbs {e : Expr} :
    (R.reading x t).value? e.logOfAbs = some v ↔
      ∃ u, (R.reading x t).value? e = some u ∧ u ≠ 0 ∧ Real.log u = v := by
  simp [Expr.logOfAbs]

@[simp] theorem value?_squareRoot {e : Expr} :
    (R.reading x t).value? (.squareRoot e) = some v ↔
      ∃ u, (R.reading x t).value? e = some u ∧ 0 ≤ u ∧ √u = v := by
  simp [Expr.squareRoot]

@[simp] theorem value?_negate_logOfAbs {e : Expr} :
    (R.reading x t).value? e.logOfAbs.negate = some v ↔
      ∃ u, (R.reading x t).value? e = some u ∧ u ≠ 0 ∧ -Real.log u = v := by
  rw [Expr.logOfAbs, Expr.ln, DifferentialReading.value?_negate_apply, ← Expr.ln, ← Expr.logOfAbs]
  simp [and_assoc]

end Values

/-! ## Slopes -/

section Slopes

theorem hasDerivAt_artanh (inside : |t| < 1) : HasDerivAt Real.artanh (1 / (1 - t ^ 2)) t := by
  obtain ⟨left, right⟩ := abs_lt.mp inside
  have above : 1 + t ≠ 0 := by linarith
  have below : 1 - t ≠ 0 := by linarith
  have formula : Real.artanh =ᶠ[𝓝 t] fun s => 1 / 2 * Real.log ((1 + s) / (1 - s)) := by
    filter_upwards [Icc_mem_nhds left right] with s within
    exact Real.artanh_eq_half_log within
  have ratio := ((hasDerivAt_id' t).const_add 1).fun_div ((hasDerivAt_id' t).const_sub 1) below
  have slope := (ratio.log (div_ne_zero above below)).const_mul (1 / 2)
  refine (slope.congr_of_eventuallyEq formula).congr_deriv ?_
  rw [show 1 - t ^ 2 = (1 + t) * (1 - t) by ring]
  field_simp
  ring

/-- The slope of `t * f t + c * √(r t)`, where that of `f` is `k / √(r t)` and the roots cancel. -/
theorem hasDerivAt_add_root {f r : ℝ → ℝ} {c k slope : ℝ} (hf : HasDerivAt f (k / √(r t)) t)
    (hr : HasDerivAt r slope t) (positive : 0 < r t) (balance : 2 * t * k + c * slope = 0) :
    HasDerivAt (fun t => t * f t + c * √(r t)) (f t) t := by
  have root : √(r t) ≠ 0 := Real.sqrt_ne_zero'.mpr positive
  refine (((hasDerivAt_id' t).mul hf).add ((hr.sqrt positive.ne').const_mul c)).congr_deriv ?_
  field_simp
  linear_combination balance

theorem lt_one_of_near (near : ∀ᶠ s in 𝓝 t, |s| ≤ 1) : |t| < 1 := by
  simp_rw [abs_le] at near
  have inside : t ∈ interior (Set.Icc (-1) 1) := mem_interior_iff_mem_nhds.mpr near
  rw [interior_Icc] at inside
  exact abs_lt.mpr inside

theorem lt_of_near {c : ℝ} (near : ∀ᶠ s in 𝓝 t, c ≤ s) : c < t := by
  have inside : t ∈ interior (Set.Ici c) := mem_interior_iff_mem_nhds.mpr near
  rwa [interior_Ici] at inside

end Slopes

/-! ## Entries that circular and hyperbolic functions have in common -/

section Ratios

variable (family : Ratio → NamedFunction) {sine cosine : ℝ → ℝ} {s : ℝ}
  (h : RatioSlopes sine cosine s)
  (reads : ∀ q t u, (R.reading x t).call? (family q) [u] = ratioOf sine cosine q u)
include h reads

theorem antiderivative_cosine :
    R.IsAntiderivative x (.apply (family .sin) (.ident x)) (.apply (family .cos) (.ident x)) := by
  refine .of_formula sine fun t v w hv hw => ?_
  obtain rfl : sine t = v := by simpa [curve, reads, ratioOf] using hv
  obtain rfl : cosine t = w := by simpa [curve, reads, ratioOf] using hw
  exact ⟨rfl, fun _ _ => h.slope_sine t⟩

theorem antiderivative_cotangent :
    R.IsAntiderivative x (Expr.logOfAbs (.apply (family .sin) (.ident x)))
      (.apply (family .cot) (.ident x)) := by
  refine .of_formula (fun t => Real.log (sine t)) fun t v w hv hw => ?_
  obtain ⟨nonzero, rfl⟩ : sine t ≠ 0 ∧ Real.log (sine t) = v := by
    simpa [curve, reads, ratioOf] using hv
  obtain ⟨-, rfl⟩ : sine t ≠ 0 ∧ cosine t / sine t = w := by
    simpa [curve, reads, ratioOf] using hw
  exact ⟨rfl, fun _ _ => h.log_sine nonzero⟩

theorem antiderivative_secantSquared :
    R.IsAntiderivative x (.apply (family .tan) (.ident x))
      (.pow (.apply (family .sec) (.ident x)) (.ofInt 2)) := by
  refine .of_formula (fun t => sine t / cosine t) fun t v w hv hw => ?_
  obtain ⟨nonzero, rfl⟩ : cosine t ≠ 0 ∧ sine t / cosine t = v := by
    simpa [curve, reads, ratioOf] using hv
  obtain ⟨-, rfl⟩ : cosine t ≠ 0 ∧ (1 / cosine t) ^ 2 = w := by
    simpa [curve, reads, ratioOf] using hw
  exact ⟨rfl, fun _ _ => h.tan nonzero⟩

theorem antiderivative_cosecantSquared :
    R.IsAntiderivative x (Expr.apply (family .cot) (.ident x)).negate
      (.pow (.apply (family .csc) (.ident x)) (.ofInt 2)) := by
  refine .of_formula (fun t => -(cosine t / sine t)) fun t v w hv hw => ?_
  obtain ⟨nonzero, rfl⟩ : sine t ≠ 0 ∧ -(cosine t / sine t) = v := by
    simpa [curve, value?_negate_apply, reads, ratioOf] using hv
  obtain ⟨-, rfl⟩ : sine t ≠ 0 ∧ (1 / sine t) ^ 2 = w := by
    simpa [curve, reads, ratioOf] using hw
  exact ⟨rfl, fun _ _ => (h.cot nonzero).neg.congr_deriv (neg_neg _)⟩

theorem antiderivative_cosecantCotangent :
    R.IsAntiderivative x (Expr.apply (family .csc) (.ident x)).negate
      (.product [.apply (family .csc) (.ident x), .apply (family .cot) (.ident x)]) := by
  refine .of_formula (fun t => -(1 / sine t)) fun t v w hv hw => ?_
  obtain ⟨nonzero, rfl⟩ : sine t ≠ 0 ∧ -(1 / sine t) = v := by
    simpa [curve, value?_negate_apply, reads, ratioOf] using hv
  obtain ⟨-, rfl⟩ : sine t ≠ 0 ∧ 1 / sine t * (cosine t / sine t) = w := by
    simpa [curve, reads, ratioOf] using hw
  exact ⟨rfl, fun _ _ => (h.csc nonzero).neg.congr_deriv (neg_neg _)⟩

end Ratios

/-! ## Calls -/

variable {F : Expr}

theorem antiderivative_circular {q : Ratio}
    (found : Expr.integralOfCall? (.ident x) (.circular q) = some F) :
    R.IsAntiderivative x F (.apply (.circular q) (.ident x)) := by
  cases q <;> cases found
  case sin =>
    refine .of_formula (fun t => -Real.cos t) fun t v w hv hw => ?_
    obtain rfl : -Real.cos t = v := by simpa [curve, value?_negate_apply, ratioOf] using hv
    obtain rfl : Real.sin t = w := by simpa [curve, ratioOf] using hw
    exact ⟨rfl, fun _ _ => (Real.hasDerivAt_cos t).neg.congr_deriv (neg_neg _)⟩
  case cos => exact antiderivative_cosine .circular circularSlopes fun _ _ _ => rfl
  case tan =>
    refine .of_formula (fun t => -Real.log (Real.cos t)) fun t v w hv hw => ?_
    obtain ⟨nonzero, rfl⟩ : Real.cos t ≠ 0 ∧ -Real.log (Real.cos t) = v := by
      simpa [curve, ratioOf] using hv
    obtain ⟨-, rfl⟩ : Real.cos t ≠ 0 ∧ Real.sin t / Real.cos t = w := by
      simpa [curve, ratioOf] using hw
    exact ⟨rfl, fun _ _ => (circularSlopes.log_cosine nonzero).neg.congr_deriv (by ring)⟩
  case cot => exact antiderivative_cotangent .circular circularSlopes fun _ _ _ => rfl
  case sec =>
    refine .of_formula (fun t => Real.log (1 / Real.cos t + Real.sin t / Real.cos t))
      fun t v w hv hw => ?_
    obtain ⟨nonzero, total, rfl⟩ : Real.cos t ≠ 0 ∧ 1 / Real.cos t + Real.sin t / Real.cos t ≠ 0 ∧
        Real.log (1 / Real.cos t + Real.sin t / Real.cos t) = v := by
      simpa [curve, ratioOf] using hv
    obtain ⟨-, rfl⟩ : Real.cos t ≠ 0 ∧ 1 / Real.cos t = w := by
      simpa [curve, ratioOf] using hw
    refine ⟨rfl, fun _ _ => ?_⟩
    have slope := ((circularSlopes.sec nonzero).add (circularSlopes.tan nonzero)).log total
    refine slope.congr_deriv ((div_eq_iff total).mpr ?_)
    ring
  case csc =>
    refine .of_formula (fun t => -Real.log (1 / Real.sin t + Real.cos t / Real.sin t))
      fun t v w hv hw => ?_
    obtain ⟨nonzero, total, rfl⟩ : Real.sin t ≠ 0 ∧ 1 / Real.sin t + Real.cos t / Real.sin t ≠ 0 ∧
        -Real.log (1 / Real.sin t + Real.cos t / Real.sin t) = v := by
      simpa [curve, ratioOf] using hv
    obtain ⟨-, rfl⟩ : Real.sin t ≠ 0 ∧ 1 / Real.sin t = w := by
      simpa [curve, ratioOf] using hw
    refine ⟨rfl, fun _ _ => ?_⟩
    have slope := ((circularSlopes.csc nonzero).add (circularSlopes.cot nonzero)).log total
    refine slope.neg.congr_deriv (neg_eq_iff_eq_neg.mpr ((div_eq_iff total).mpr ?_))
    ring

theorem antiderivative_hyperbolic {q : Ratio}
    (found : Expr.integralOfCall? (.ident x) (.hyperbolic q) = some F) :
    R.IsAntiderivative x F (.apply (.hyperbolic q) (.ident x)) := by
  cases q <;> cases found
  case sin =>
    refine .of_formula Real.cosh fun t v w hv hw => ?_
    obtain rfl : Real.cosh t = v := by simpa [curve, ratioOf] using hv
    obtain rfl : Real.sinh t = w := by simpa [curve, ratioOf] using hw
    exact ⟨rfl, fun _ _ => Real.hasDerivAt_cosh t⟩
  case cos => exact antiderivative_cosine .hyperbolic hyperbolicSlopes fun _ _ _ => rfl
  case tan =>
    refine .of_formula (fun t => Real.log (Real.cosh t)) fun t v w hv hw => ?_
    obtain ⟨positive, rfl⟩ : 0 < Real.cosh t ∧ Real.log (Real.cosh t) = v := by
      simpa [curve, ratioOf] using hv
    obtain ⟨-, rfl⟩ : Real.cosh t ≠ 0 ∧ Real.sinh t / Real.cosh t = w := by
      simpa [curve, ratioOf] using hw
    exact ⟨rfl, fun _ _ => (hyperbolicSlopes.log_cosine positive.ne').congr_deriv (by ring)⟩
  case cot => exact antiderivative_cotangent .hyperbolic hyperbolicSlopes fun _ _ _ => rfl
  case sec =>
    refine .of_formula (fun t => Real.arctan (Real.sinh t)) fun t v w hv hw => ?_
    obtain rfl : Real.arctan (Real.sinh t) = v := by simpa [curve, ratioOf] using hv
    obtain ⟨nonzero, rfl⟩ : Real.cosh t ≠ 0 ∧ 1 / Real.cosh t = w := by
      simpa [curve, ratioOf] using hw
    refine ⟨rfl, fun _ _ => (Real.hasDerivAt_sinh t).arctan.congr_deriv ?_⟩
    rw [← Real.cosh_sq']
    field_simp
  case csc =>
    refine .of_formula (fun t => Real.log (Real.sinh (t / 2) / Real.cosh (t / 2)))
      fun t v w hv hw => ?_
    obtain ⟨bottom, top, rfl⟩ : Real.cosh (t / 2) ≠ 0 ∧
        Real.sinh (t / 2) / Real.cosh (t / 2) ≠ 0 ∧
        Real.log (Real.sinh (t / 2) / Real.cosh (t / 2)) = v := by
      simpa [curve, ratioOf] using hv
    obtain ⟨-, rfl⟩ : Real.sinh t ≠ 0 ∧ 1 / Real.sinh t = w := by
      simpa [curve, ratioOf] using hw
    have double : Real.sinh t = 2 * Real.sinh (t / 2) * Real.cosh (t / 2) := by
      rw [← Real.sinh_two_mul, mul_div_cancel₀ t two_ne_zero]
    have tangent : HasDerivAt (fun t => Real.sinh (t / 2) / Real.cosh (t / 2))
        ((1 / Real.cosh (t / 2)) ^ 2 * (1 / 2)) t :=
      HasDerivAt.comp t (h := fun t => t / 2) (hyperbolicSlopes.tan bottom)
        ((hasDerivAt_id' t).div_const 2)
    refine ⟨rfl, fun _ _ => (tangent.log top).congr_deriv ?_⟩
    rw [double]
    field_simp

theorem antiderivative_arcCircular {q : Ratio}
    (found : Expr.integralOfCall? (.ident x) (.arcCircular q) = some F) :
    R.IsAntiderivative x F (.apply (.arcCircular q) (.ident x)) := by
  have square (t : ℝ) : HasDerivAt (fun t => 1 - t ^ 2) (-(2 * t)) t :=
    ((hasDerivAt_pow 2 t).const_sub 1).congr_deriv (by ring)
  cases q <;> cases found
  case sin =>
    refine .of_formula (fun t => t * Real.arcsin t + 1 * √(1 - t ^ 2)) fun t v w hv hw => ?_
    obtain ⟨-, -, rfl⟩ : |t| ≤ 1 ∧ 0 ≤ 1 - t ^ 2 ∧ t * Real.arcsin t + √(1 - t ^ 2) = v := by
      simpa [curve] using hv
    obtain ⟨-, rfl⟩ : |t| ≤ 1 ∧ Real.arcsin t = w := by simpa [curve] using hw
    refine ⟨by ring, fun near _ => ?_⟩
    have inside : |t| < 1 := lt_one_of_near <| near.mono fun s valued => by
      obtain ⟨-, w, hw⟩ := valued
      exact (show |s| ≤ 1 ∧ Real.arcsin s = w by simpa [curve] using hw).1
    obtain ⟨left, right⟩ := abs_lt.mp inside
    exact hasDerivAt_add_root (Real.hasDerivAt_arcsin left.ne' right.ne) (square t) (by nlinarith)
      (by ring)
  case cos =>
    refine .of_formula (fun t => t * Real.arccos t + -1 * √(1 - t ^ 2)) fun t v w hv hw => ?_
    obtain ⟨-, -, rfl⟩ : |t| ≤ 1 ∧ 0 ≤ 1 - t ^ 2 ∧ t * Real.arccos t - √(1 - t ^ 2) = v := by
      simpa [curve] using hv
    obtain ⟨-, rfl⟩ : |t| ≤ 1 ∧ Real.arccos t = w := by simpa [curve] using hw
    refine ⟨by ring, fun near _ => ?_⟩
    have inside : |t| < 1 := lt_one_of_near <| near.mono fun s valued => by
      obtain ⟨-, w, hw⟩ := valued
      exact (show |s| ≤ 1 ∧ Real.arccos s = w by simpa [curve] using hw).1
    obtain ⟨left, right⟩ := abs_lt.mp inside
    have slope : HasDerivAt Real.arccos (-1 / √(1 - t ^ 2)) t :=
      (Real.hasDerivAt_arccos left.ne' right.ne).congr_deriv (neg_div _ _).symm
    exact hasDerivAt_add_root slope (square t) (by nlinarith) (by ring)
  case tan =>
    refine .of_formula (fun t => t * Real.arctan t - Real.log (1 + t ^ 2) / 2) fun t v w hv hw => ?_
    obtain ⟨positive, rfl⟩ : 0 < 1 + t ^ 2 ∧ t * Real.arctan t - Real.log (1 + t ^ 2) / 2 = v := by
      simpa [curve] using hv
    obtain rfl : Real.arctan t = w := by simpa [curve] using hw
    refine ⟨rfl, fun _ _ => ?_⟩
    have slope := ((hasDerivAt_id' t).mul (Real.hasDerivAt_arctan t)).sub
      ((((hasDerivAt_pow 2 t).const_add 1).log positive.ne').div_const 2)
    refine slope.congr_deriv ?_
    field_simp
    ring

theorem antiderivative_arcHyperbolic {q : Ratio}
    (found : Expr.integralOfCall? (.ident x) (.arcHyperbolic q) = some F) :
    R.IsAntiderivative x F (.apply (.arcHyperbolic q) (.ident x)) := by
  cases q <;> cases found
  case sin =>
    refine .of_formula (fun t => t * Real.arsinh t + -1 * √(t ^ 2 + 1)) fun t v w hv hw => ?_
    obtain ⟨-, rfl⟩ : 0 ≤ t ^ 2 + 1 ∧ t * Real.arsinh t - √(t ^ 2 + 1) = v := by
      simpa [curve] using hv
    obtain rfl : Real.arsinh t = w := by simpa [curve] using hw
    refine ⟨by ring, fun _ _ => ?_⟩
    have slope : HasDerivAt Real.arsinh (1 / √(t ^ 2 + 1)) t :=
      (Real.hasDerivAt_arsinh t).congr_deriv (by rw [one_div, add_comm])
    exact hasDerivAt_add_root slope ((hasDerivAt_pow 2 t).add_const 1) (by positivity) (by ring)
  case cos =>
    refine .of_formula (fun t => t * Real.arcosh t + -1 * √(t ^ 2 - 1)) fun t v w hv hw => ?_
    obtain ⟨-, -, rfl⟩ : 1 ≤ t ∧ 0 ≤ t ^ 2 - 1 ∧ t * Real.arcosh t - √(t ^ 2 - 1) = v := by
      simpa [curve] using hv
    obtain ⟨-, rfl⟩ : 1 ≤ t ∧ Real.arcosh t = w := by simpa [curve] using hw
    refine ⟨by ring, fun near _ => ?_⟩
    have above : 1 < t := lt_of_near <| near.mono fun s valued => by
      obtain ⟨-, w, hw⟩ := valued
      exact (show 1 ≤ s ∧ Real.arcosh s = w by simpa [curve] using hw).1
    have slope : HasDerivAt Real.arcosh (1 / √(t ^ 2 - 1)) t :=
      (Real.hasDerivAt_arcosh above).congr_deriv (one_div _).symm
    exact hasDerivAt_add_root slope ((hasDerivAt_pow 2 t).sub_const 1) (by nlinarith) (by ring)
  case tan =>
    refine .of_formula (fun t => t * Real.artanh t + Real.log (1 - t ^ 2) / 2) fun t v w hv hw => ?_
    obtain ⟨inside, positive, rfl⟩ : |t| < 1 ∧ 0 < 1 - t ^ 2 ∧
        t * Real.artanh t + Real.log (1 - t ^ 2) / 2 = v := by
      simpa [curve] using hv
    obtain ⟨-, rfl⟩ : |t| < 1 ∧ Real.artanh t = w := by simpa [curve] using hw
    refine ⟨rfl, fun _ _ => ?_⟩
    have slope := ((hasDerivAt_id' t).mul (hasDerivAt_artanh inside)).add
      ((((hasDerivAt_pow 2 t).const_sub 1).log positive.ne').div_const 2)
    refine slope.congr_deriv ?_
    field_simp
    ring

theorem antiderivative_logarithm {f : NamedFunction} (logarithm : f = .ln ∨ f = .log)
    (found : Expr.integralOfCall? (.ident x) f = some F) :
    R.IsAntiderivative x F (.apply f (.ident x)) := by
  have product {t : ℝ} (positive : 0 < t) :
      HasDerivAt (fun t => t * Real.log t - t) (Real.log t) t := by
    have slope := ((hasDerivAt_id' t).mul (Real.hasDerivAt_log positive.ne')).sub (hasDerivAt_id' t)
    refine slope.congr_deriv ?_
    field_simp
    ring
  rcases logarithm with rfl | rfl <;> cases found
  · refine .of_formula (fun t => t * Real.log t - t) fun t v w hv hw => ?_
    obtain ⟨-, rfl⟩ : 0 < t ∧ t * Real.log t - t = v := by simpa [curve] using hv
    obtain ⟨positive, rfl⟩ : 0 < t ∧ Real.log t = w := by simpa [curve] using hw
    exact ⟨rfl, fun _ _ => product positive⟩
  · refine .of_formula (fun t => (t * Real.log t - t) / Real.log 10) fun t v w hv hw => ?_
    obtain ⟨-, -, rfl⟩ : 0 < t ∧ Real.log 10 ≠ 0 ∧ (t * Real.log t - t) / Real.log 10 = v := by
      simpa [curve] using hv
    obtain ⟨positive, rfl⟩ : 0 < t ∧ Real.log t / Real.log 10 = w := by simpa [curve] using hw
    exact ⟨rfl, fun _ _ => (product positive).div_const _⟩

theorem antiderivative_sqrt (found : Expr.integralOfCall? (.ident x) .sqrt = some F) :
    R.IsAntiderivative x F (.apply .sqrt (.ident x)) := by
  cases found
  refine .of_formula (fun t => 2 / 3 * t ^ (3 / 2 : ℝ)) fun t v w hv hw => ?_
  obtain ⟨p, power, rfl⟩ : ∃ p, R.power? t (3 / 2) = some p ∧ 2 / 3 * p = v := by
    simpa [curve, DifferentialReading.value?_times, Rat.mkRat_eq_div] using hv
  obtain ⟨nonneg, rfl⟩ : 0 ≤ t ∧ √t = w := by simpa [curve] using hw
  refine ⟨by rw [power?_of_nonneg nonneg power], fun near _ => ?_⟩
  have positive : 0 < t := lt_of_near <| near.mono fun s valued => by
    obtain ⟨-, w, hw⟩ := valued
    exact (show 0 ≤ s ∧ √s = w by simpa [curve] using hw).1
  have slope := Real.hasDerivAt_rpow_const (p := 3 / 2) (.inl positive.ne')
  refine (slope.const_mul (2 / 3)).congr_deriv ?_
  rw [Real.sqrt_eq_rpow]
  ring_nf

theorem antiderivative_abs (found : Expr.integralOfCall? (.ident x) .abs = some F) :
    R.IsAntiderivative x F (.apply .abs (.ident x)) := by
  cases found
  refine .of_formula (fun t => t * |t| / 2) fun t v w hv hw => ?_
  obtain rfl : t * |t| / 2 = v := by simpa [curve] using hv
  obtain rfl : |t| = w := by simpa [curve] using hw
  refine ⟨rfl, fun _ _ => ?_⟩
  rcases eq_or_ne t 0 with rfl | nonzero
  · rw [hasDerivAt_iff_tendsto_slope_zero, abs_zero]
    have limit : Tendsto (fun s : ℝ => |s| / 2) (𝓝[≠] 0) (𝓝 0) := by
      refine tendsto_nhdsWithin_of_tendsto_nhds ?_
      exact Continuous.tendsto' (by fun_prop) 0 0 (by simp)
    refine limit.congr' ?_
    filter_upwards [self_mem_nhdsWithin] with s nonzero
    rw [zero_add, zero_mul, zero_div, sub_zero, smul_eq_mul, mul_div_assoc,
      inv_mul_cancel_left₀ nonzero]
  · refine (((hasDerivAt_id' t).mul (hasDerivAt_abs nonzero)).div_const 2).congr_deriv ?_
    rw [self_mul_sign]
    ring

theorem antiderivative_sgn (found : Expr.integralOfCall? (.ident x) .sgn = some F) :
    R.IsAntiderivative x F (.apply .sgn (.ident x)) := by
  cases found
  refine .of_formula (fun t => |t|) fun t v w hv hw => ?_
  obtain rfl : |t| = v := by simpa [curve] using hv
  obtain rfl : (SignType.sign t : ℝ) = w := by simpa [curve] using hw
  refine ⟨rfl, fun _ differentiable => ?_⟩
  have nonzero : t ≠ 0 := by
    rintro rfl
    exact not_differentiableAt_abs_zero differentiable
  exact hasDerivAt_abs nonzero

theorem antiderivative_call {f : NamedFunction}
    (found : Expr.integralOfCall? (.ident x) f = some F) :
    R.IsAntiderivative x F (.apply f (.ident x)) := by
  cases f with
  | circular q => exact antiderivative_circular found
  | arcCircular q => exact antiderivative_arcCircular found
  | hyperbolic q => exact antiderivative_hyperbolic found
  | arcHyperbolic q => exact antiderivative_arcHyperbolic found
  | ln => exact antiderivative_logarithm (.inl rfl) found
  | log => exact antiderivative_logarithm (.inr rfl) found
  | abs => exact antiderivative_abs found
  | sqrt => exact antiderivative_sqrt found
  | sgn => exact antiderivative_sgn found
  | other name => cases found

/-! ## Squares and products of calls -/

theorem antiderivative_square {f : NamedFunction}
    (found : Expr.integralOfSquare? (.ident x) f = some F) :
    R.IsAntiderivative x F (.pow (.apply f (.ident x)) (.ofInt 2)) := by
  unfold Expr.integralOfSquare? at found
  split at found <;> cases found
  case h_1 => exact antiderivative_secantSquared .circular circularSlopes fun _ _ _ => rfl
  case h_2 => exact antiderivative_cosecantSquared .circular circularSlopes fun _ _ _ => rfl
  case h_3 => exact antiderivative_secantSquared .hyperbolic hyperbolicSlopes fun _ _ _ => rfl
  case h_4 => exact antiderivative_cosecantSquared .hyperbolic hyperbolicSlopes fun _ _ _ => rfl

theorem antiderivative_pair {f g : NamedFunction}
    (found : Expr.integralOfPair? (.ident x) f g = some F) :
    R.IsAntiderivative x F (.product [.apply f (.ident x), .apply g (.ident x)]) := by
  unfold Expr.integralOfPair? at found
  split at found <;> cases found
  case h_1 =>
    refine .of_formula (fun t => 1 / Real.cos t) fun t v w hv hw => ?_
    obtain ⟨nonzero, rfl⟩ : Real.cos t ≠ 0 ∧ 1 / Real.cos t = v := by
      simpa [curve, ratioOf] using hv
    obtain ⟨-, rfl⟩ : Real.cos t ≠ 0 ∧ 1 / Real.cos t * (Real.sin t / Real.cos t) = w := by
      simpa [curve, ratioOf] using hw
    exact ⟨rfl, fun _ _ => (circularSlopes.sec nonzero).congr_deriv (one_mul _)⟩
  case h_2 => exact antiderivative_cosecantCotangent .circular circularSlopes fun _ _ _ => rfl
  case h_3 =>
    refine .of_formula (fun t => -(1 / Real.cosh t)) fun t v w hv hw => ?_
    obtain ⟨nonzero, rfl⟩ : Real.cosh t ≠ 0 ∧ -(1 / Real.cosh t) = v := by
      simpa [curve, value?_negate_apply, ratioOf] using hv
    obtain ⟨-, rfl⟩ : Real.cosh t ≠ 0 ∧ 1 / Real.cosh t * (Real.sinh t / Real.cosh t) = w := by
      simpa [curve, ratioOf] using hw
    exact ⟨rfl, fun _ _ => (hyperbolicSlopes.sec nonzero).neg.congr_deriv (by ring)⟩
  case h_4 => exact antiderivative_cosecantCotangent .hyperbolic hyperbolicSlopes fun _ _ _ => rfl
  case h_5 =>
    refine .of_formula (fun t => Real.sin t ^ 2 / 2) fun t v w hv hw => ?_
    obtain rfl : Real.sin t ^ 2 / 2 = v := by simpa [curve, ratioOf] using hv
    obtain rfl : Real.sin t * Real.cos t = w := by simpa [curve, ratioOf] using hw
    refine ⟨rfl, fun _ _ => ?_⟩
    exact (((Real.hasDerivAt_sin t).fun_pow 2).div_const 2).congr_deriv (by push_cast; ring)

end RealReading

end SymbolicAlgebra
