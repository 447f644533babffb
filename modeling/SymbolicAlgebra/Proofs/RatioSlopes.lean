import Mathlib.Analysis.SpecialFunctions.Log.Deriv
import Mathlib.Analysis.SpecialFunctions.Trigonometric.Deriv
import Mathlib.Analysis.SpecialFunctions.Trigonometric.DerivHyp
import Mathlib.Topology.Algebra.Module.ModuleTopology

/-! Derivatives of the six ratios of two functions, of which each has the other for a derivative, and
of what their powers are reduced by: the circular functions and the hyperbolic ones at once. -/
namespace SymbolicAlgebra

/-- A sine and a cosine, those of the circle with `s = 1` and those of the hyperbola with `s = -1`. -/
structure RatioSlopes (sine cosine : ℝ → ℝ) (s : ℝ) : Prop where
  unit (t : ℝ) : cosine t ^ 2 + s * sine t ^ 2 = 1
  slope_sine (t : ℝ) : HasDerivAt sine (cosine t) t
  slope_cosine (t : ℝ) : HasDerivAt cosine (-s * sine t) t

theorem circularSlopes : RatioSlopes Real.sin Real.cos 1 where
  unit t := by rw [one_mul, Real.cos_sq_add_sin_sq]
  slope_sine := Real.hasDerivAt_sin
  slope_cosine t := (Real.hasDerivAt_cos t).congr_deriv (by ring)

theorem hyperbolicSlopes : RatioSlopes Real.sinh Real.cosh (-1) where
  unit t := by linear_combination Real.cosh_sq_sub_sinh_sq t
  slope_sine := Real.hasDerivAt_sinh
  slope_cosine t := (Real.hasDerivAt_cosh t).congr_deriv (by ring)

namespace RatioSlopes

variable {sine cosine : ℝ → ℝ} {s : ℝ} (h : RatioSlopes sine cosine s) {t : ℝ} (m : ℕ)
include h

/-! ## Ratios -/

theorem tan (nonzero : cosine t ≠ 0) :
    HasDerivAt (fun t => sine t / cosine t) ((1 / cosine t) ^ 2) t := by
  refine ((h.slope_sine t).div (h.slope_cosine t) nonzero).congr_deriv ?_
  field_simp
  linear_combination h.unit t

theorem cot (nonzero : sine t ≠ 0) :
    HasDerivAt (fun t => cosine t / sine t) (-(1 / sine t) ^ 2) t := by
  refine ((h.slope_cosine t).div (h.slope_sine t) nonzero).congr_deriv ?_
  field_simp
  linear_combination -h.unit t

theorem sec (nonzero : cosine t ≠ 0) :
    HasDerivAt (fun t => 1 / cosine t) (s * (1 / cosine t * (sine t / cosine t))) t := by
  refine ((hasDerivAt_const t 1).div (h.slope_cosine t) nonzero).congr_deriv ?_
  field_simp
  ring

theorem csc (nonzero : sine t ≠ 0) :
    HasDerivAt (fun t => 1 / sine t) (-(1 / sine t * (cosine t / sine t))) t := by
  refine ((hasDerivAt_const t 1).div (h.slope_sine t) nonzero).congr_deriv ?_
  field_simp
  ring

theorem log_cosine (nonzero : cosine t ≠ 0) :
    HasDerivAt (fun t => Real.log (cosine t)) (-s * (sine t / cosine t)) t :=
  ((h.slope_cosine t).log nonzero).congr_deriv (mul_div_assoc _ _ _)

theorem log_sine (nonzero : sine t ≠ 0) :
    HasDerivAt (fun t => Real.log (sine t)) (cosine t / sine t) t :=
  (h.slope_sine t).log nonzero

/-! ## Powers -/

theorem sine_power :
    HasDerivAt (fun t => sine t ^ (m + 1) * cosine t)
      ((m + 1) * sine t ^ m - s * (m + 2) * sine t ^ (m + 2)) t := by
  refine (((h.slope_sine t).fun_pow (m + 1)).mul (h.slope_cosine t)).congr_deriv ?_
  rw [Nat.add_sub_cancel]
  push_cast
  linear_combination (m + 1) * sine t ^ m * h.unit t

theorem cosine_power :
    HasDerivAt (fun t => cosine t ^ (m + 1) * sine t)
      ((m + 2) * cosine t ^ (m + 2) - (m + 1) * cosine t ^ m) t := by
  refine (((h.slope_cosine t).fun_pow (m + 1)).mul (h.slope_sine t)).congr_deriv ?_
  rw [Nat.add_sub_cancel]
  push_cast
  linear_combination -(m + 1) * cosine t ^ m * h.unit t

theorem tan_sq (nonzero : cosine t ≠ 0) : (1 / cosine t) ^ 2 = 1 + s * (sine t / cosine t) ^ 2 := by
  field_simp
  linear_combination -h.unit t

theorem cot_sq (nonzero : sine t ≠ 0) : (1 / sine t) ^ 2 = (cosine t / sine t) ^ 2 + s := by
  field_simp
  linear_combination -h.unit t

theorem sec_power (nonzero : cosine t ≠ 0) :
    HasDerivAt (fun t => (1 / cosine t) ^ m * (sine t / cosine t))
      ((m + 1) * (1 / cosine t) ^ (m + 2) - m * (1 / cosine t) ^ m) t := by
  have power : HasDerivAt (fun t => (1 / cosine t) ^ m)
      (m * s * (1 / cosine t) ^ m * (sine t / cosine t)) t := by
    refine ((h.sec nonzero).fun_pow m).congr_deriv ?_
    cases m with
    | zero => simp
    | succ m => push_cast; ring
  refine (power.mul (h.tan nonzero)).congr_deriv ?_
  linear_combination -m * (1 / cosine t) ^ m * h.tan_sq nonzero

theorem csc_power (nonzero : sine t ≠ 0) :
    HasDerivAt (fun t => (1 / sine t) ^ m * (cosine t / sine t))
      (s * m * (1 / sine t) ^ m - (m + 1) * (1 / sine t) ^ (m + 2)) t := by
  have power : HasDerivAt (fun t => (1 / sine t) ^ m)
      (-m * (1 / sine t) ^ m * (cosine t / sine t)) t := by
    refine ((h.csc nonzero).fun_pow m).congr_deriv ?_
    cases m with
    | zero => simp
    | succ m => push_cast; ring
  refine (power.mul (h.cot nonzero)).congr_deriv ?_
  linear_combination m * (1 / sine t) ^ m * h.cot_sq nonzero

theorem tan_power (nonzero : cosine t ≠ 0) :
    HasDerivAt (fun t => (sine t / cosine t) ^ (m + 1))
      ((m + 1) * ((sine t / cosine t) ^ m + s * (sine t / cosine t) ^ (m + 2))) t := by
  refine ((h.tan nonzero).fun_pow (m + 1)).congr_deriv ?_
  rw [Nat.add_sub_cancel, h.tan_sq nonzero]
  push_cast
  ring

theorem cot_power (nonzero : sine t ≠ 0) :
    HasDerivAt (fun t => (cosine t / sine t) ^ (m + 1))
      (-(m + 1) * ((cosine t / sine t) ^ (m + 2) + s * (cosine t / sine t) ^ m)) t := by
  refine ((h.cot nonzero).fun_pow (m + 1)).congr_deriv ?_
  rw [Nat.add_sub_cancel, h.cot_sq nonzero]
  push_cast
  ring

end RatioSlopes

end SymbolicAlgebra
