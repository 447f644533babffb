import Mathlib.Analysis.Calculus.Deriv.Add
import Mathlib.Analysis.Calculus.Deriv.Mul
import Mathlib.Analysis.Calculus.Deriv.Pow
import Mathlib.Topology.Algebra.Module.ModuleTopology
import SymbolicAlgebra.Calculus.Antiderivative
import SymbolicAlgebra.Proofs.Evaluation
import SymbolicAlgebra.Proofs.Rounds

/-! An antiderivative is sought for the normal form of the integrand, so a fault of that one is passed
on. -/
namespace SymbolicAlgebra

namespace Reading

/-- `x * y^2 + 1`, which the normal form of `(x * (x * y)^2 + x) / x` is mistaken for. -/
def mistakenIntegrand : Expr :=
  .add (.mul (.ident "x") (.pow (.ident "y") (.ofInt 2))) .one

/-- `y^2 * (x^2 / 2) + x`, as linearity leaves it. -/
def linearIntegral : Expr :=
  .add (.mul (.pow (.ident "y") (.ofInt 2)) (.div (.pow (.ident "x") (.ofInt 2)) (.ofInt 2)))
    (.ident "x")

/-- `x + (x^2 * y^2) / 2`. -/
def mistakenIntegral : Expr :=
  .add (.ident "x") (.div (.mul (.pow (.ident "x") (.ofInt 2)) (.pow (.ident "y") (.ofInt 2)))
    (.ofInt 2))

theorem antiderivative?_repeatedBase :
    antiderivative? {} "x" repeatedBase = some (mistakenIntegral, .linearity) := by
  have integrand : normalForm repeatedBase = mistakenIntegrand := by
    rw [normalForm_eq]
    decide +kernel
  have raw : rawAntiderivative? {} "x" mistakenIntegrand = some (linearIntegral, .linearity) := by
    decide +kernel
  have result : normalForm linearIntegral = mistakenIntegral := by
    rw [normalForm_eq]
    decide +kernel
  rw [antiderivative?, integrand]
  dsimp only
  rw [raw]
  show (if (normalForm linearIntegral).isNaN then none
    else some (normalForm linearIntegral, Strategy.linearity)) = _
  rw [result]
  rfl

/-- The real numbers, with `x` for the one that varies and one for all others. -/
def alongX (x : ℝ) : Reading ℝ := .ofAssignment fun name => if name = "x" then x else 1

theorem alongX_ident (x : ℝ) :
    (alongX x).ident "x" = x ∧ (alongX x).ident "y" = 1 := by
  simp [alongX, ofAssignment]

theorem defined_square {R : Reading ℝ} {e : Expr} (h : R.Defined e) :
    R.Defined (.pow e (.ofInt 2)) := by
  rw [defined_pow, val_ofInt]
  exact ⟨h, defined_ofInt 2, 2, rfl, fun _ => by decide⟩

theorem val_square (R : Reading ℝ) (e : Expr) : R.val (.pow e (.ofInt 2)) = R.val e ^ 2 := by
  rw [val_pow, val_ofInt, power_intCast, zpow_ofNat]

/-- At `x = 2`, `y = 1` the integrand `(x * (x * y)^2 + x) / x` is five, but the antiderivative that
is found for it grows at the rate three. -/
theorem antiderivative?_of_repeated_base_fails :
    ∃ f, antiderivative? {} "x" repeatedBase = some (f, .linearity) ∧
      (∀ x, (alongX x).Defined f) ∧ HasDerivAt (fun x => (alongX x).val f) 3 2 ∧
      (alongX 2).Defined repeatedBase ∧ (alongX 2).val repeatedBase = 5 := by
  refine ⟨mistakenIntegral, antiderivative?_repeatedBase, fun x => ?_, ?_, ?_⟩
  · simp only [mistakenIntegral, defined_add, defined_div, defined_mul, defined_ident, val_ofInt,
      defined_ofInt, true_and]
    exact ⟨⟨defined_square trivial, defined_square trivial⟩, by norm_num⟩
  · have value (x : ℝ) : (alongX x).val mistakenIntegral = x + x ^ 2 / 2 := by
      simp only [mistakenIntegral, val_add, val_div, val_mul, val_square, val_ident, val_ofInt,
        alongX_ident]
      norm_num
    simp only [value]
    have square : HasDerivAt (fun x : ℝ => x ^ 2 / 2) (2 * 2 / 2) 2 := by
      simpa using (hasDerivAt_pow 2 (2 : ℝ)).div_const 2
    have rate : (3 : ℝ) = 1 + 2 * 2 / 2 := by norm_num
    rw [rate]
    exact (hasDerivAt_id (2 : ℝ)).add square
  · have value : (alongX 2).val repeatedBase = 5 := by
      simp only [repeatedBase, val_div, val_add, val_mul, val_square, val_ident, alongX_ident]
      norm_num
    have divisor : (alongX 2).val (.ident "x") ≠ 0 := by
      rw [val_ident, (alongX_ident 2).1]
      norm_num
    refine ⟨?_, value⟩
    rw [repeatedBase, defined_div, defined_add, defined_mul]
    exact ⟨⟨⟨trivial, defined_square ((defined_mul _ _).mpr ⟨trivial, trivial⟩)⟩, trivial⟩, trivial,
      divisor⟩

end Reading

end SymbolicAlgebra
