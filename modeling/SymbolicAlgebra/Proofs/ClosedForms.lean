import SymbolicAlgebra.Proofs.ReductionFormulas

/-! Every closed form of the integrator is an antiderivative. -/
namespace SymbolicAlgebra

namespace RealReading

open DifferentialReading (value?_ofInt value?_times)
open SymbolicAlgebra.Reading (ratioOf)

/-- With any simplifier that keeps values in the place of the normal form, an answer of the table is
an antiderivative, and so is one by a reduction formula or by a sum in the place of a product if
those of the integrals that they ask for are. -/
theorem closed_forms_are_antiderivatives {R : RealReading} {x : String} {simplify : Expr → Expr}
    (keeps : R.Keeps x simplify) {e F : Expr} (deeper : Integral) :
    (Expr.tabledIntegral? = Expr.tabledIntegralUsing? normalForm ∧
      integrateSineProduct deeper x = integrateSineProductUsing normalForm x deeper) ∧
    (e.tabledIntegralUsing? simplify x = some F → R.IsAntiderivative x F e) ∧
    (integrateReduced deeper x e = some F →
      (∀ d G, loweredPower? x e = some d → deeper.expr? x false d = some G →
        R.IsAntiderivative x G d) → R.IsAntiderivative x F e) ∧
    (integrateSineProductUsing simplify x deeper e = some F →
      (∀ d G, sineSumUsing? simplify x e = some d → deeper.expr? x false d = some G →
        R.IsAntiderivative x G d) → R.IsAntiderivative x F e) :=
  ⟨⟨Expr.tabledIntegral?_eq, integrateSineProduct_eq deeper x⟩, antiderivative_tabled keeps,
    antiderivative_reduced, antiderivative_sineProduct keeps⟩

/-- The cube of the symbol, the square of its sine, and `sin x * cos (2 * x)`, for which the
difference of the arguments is negative. -/
theorem closed_forms_are_antiderivatives_of_powers :
    let x : Expr := .ident "x"
    let times (n : Int) : Expr := .product [.ofInt n, x]
    let half (e : Expr) : Expr := .div e (.ofInt 2)
    let simplify : Expr → Expr := fun e =>
      if e = .sum [.ofInt 3, .one] then .ofInt 4
      else if e = .sum [x, times 2] then times 3
      else if e = .sub x (times 2) then times (-1)
      else e
    let cube : Expr := .pow x (.ofInt 3)
    let square : Expr := .pow (.apply .sin x) (.ofInt 2)
    let product : Expr := .product [.apply .sin x, .apply .cos (times 2)]
    let sum : Expr := half (.sub (.apply .sin (times 3)) (.apply .sin x))
    let ofSum : Expr := half (.sub (.apply .cos x) (.div (.apply .cos (times 3)) (.ofInt 3)))
    let deeper : Integral := fun _ _ e =>
      if e = .one then some (x, .table) else if e = sum then some (ofSum, .table) else none
    let reduced : Expr := .sum
      [.product [half (.ofInt (-1)), .apply .sin x, .apply .cos x], .product [half .one, x]]
    basic.Keeps "x" simplify ∧
      cube.tabledIntegralUsing? simplify "x" = some (.div (.pow x (.ofInt 4)) (.ofInt 4)) ∧
      (∀ t, HasDerivAt (fun t : ℝ => t ^ 4 / 4) (t ^ 3) t) ∧
      integrateReduced deeper "x" square = some reduced ∧
      (∀ t, HasDerivAt (fun t => -1 / 2 * (Real.sin t * Real.cos t) + 1 / 2 * t)
        (Real.sin t ^ 2) t) ∧
      integrateSineProductUsing simplify "x" deeper product = some ofSum ∧
      ∀ t, HasDerivAt (fun t => (Real.cos t - Real.cos (3 * t) / 3) / 2)
        (Real.sin t * Real.cos (2 * t)) t := by
  intro x times half simplify cube square product sum ofSum deeper reduced
  have tabled : cube.tabledIntegralUsing? simplify "x" =
      some (.div (.pow x (.ofInt 4)) (.ofInt 4)) := by
    decide +kernel
  have lowered : integrateReduced deeper "x" square = some reduced := by decide +kernel
  have rewritten : integrateSineProductUsing simplify "x" deeper product = some ofSum := by
    decide +kernel
  have keeps : basic.Keeps "x" simplify := by
    intro e t v hv
    simp only [simplify]
    split
    case isTrue same =>
      subst same
      obtain rfl : 3 + 1 = v := by simpa [curve] using hv
      exact (value?_ofInt 4).trans (congrArg some (by norm_num))
    split
    case isTrue same =>
      subst same
      obtain rfl : t + 2 * t = v := by simpa [curve, x, times] using hv
      exact value?_times.mpr ⟨3, value?_ofInt 3, t, by simp [x], by ring⟩
    split
    case isTrue same =>
      subst same
      obtain rfl : t - 2 * t = v := by simpa [curve, x, times] using hv
      exact value?_times.mpr ⟨-1, by simp, t, by simp [x], by ring⟩
    exact hv
  have one : basic.IsAntiderivative "x" x .one := by
    refine .of_formula id fun t v w hv hw => ?_
    obtain rfl : t = v := by simpa [curve, x] using hv
    obtain rfl : 1 = w := by simpa [curve] using hw
    exact ⟨rfl, fun _ _ => hasDerivAt_id t⟩
  have sines : basic.IsAntiderivative "x" ofSum sum := by
    refine .of_formula (fun t => (Real.cos t - Real.cos (3 * t) / 3) / 2) fun t v w hv hw => ?_
    obtain rfl : (Real.cos t - Real.cos (3 * t) / 3) / 2 = v := by
      simpa [curve, ofSum, half, times, x, ratioOf] using hv
    obtain rfl : (Real.sin (3 * t) - Real.sin t) / 2 = w := by
      simpa [curve, sum, half, times, x, ratioOf] using hw
    refine ⟨rfl, fun _ _ => ?_⟩
    have tripled := ((hasDerivAt_id' t).const_mul 3).cos.div_const 3
    exact (((Real.hasDerivAt_cos t).sub tripled).div_const 2).congr_deriv (by ring)
  have closed {e F : Expr} := closed_forms_are_antiderivatives keeps (e := e) (F := F) deeper
  have ofCube := closed.2.1 tabled
  have ofSquare : basic.IsAntiderivative "x" reduced square := by
    refine closed.2.2.1 lowered fun d G asked answered => ?_
    have asks : loweredPower? "x" square = some .one := by decide +kernel
    obtain rfl := Option.some.inj (asks.symm.trans asked)
    cases answered
    exact one
  have ofProduct : basic.IsAntiderivative "x" ofSum product := by
    refine closed.2.2.2 rewritten fun d G asked answered => ?_
    have asks : sineSumUsing? simplify "x" product = some sum := by decide +kernel
    obtain rfl := Option.some.inj (asks.symm.trans asked)
    have answers : deeper.expr? "x" false sum = some ofSum := by decide +kernel
    obtain rfl := Option.some.inj (answers.symm.trans answered)
    exact sines
  refine ⟨keeps, tabled, ofCube.hasDerivAt (fun t => ?_) (fun t => ?_) (by fun_prop), lowered,
    ofSquare.hasDerivAt (fun t => ?_) (fun t => ?_) (by fun_prop), rewritten,
    ofProduct.hasDerivAt (fun t => ?_) (fun t => ?_) (by fun_prop)⟩
  · simp [curve, x]
  · simp [curve, cube, x]
  · simp [curve, reduced, half, x, ratioOf]
  · simp [curve, square, x, ratioOf]
  · simp [curve, ofSum, half, times, x, ratioOf]
  · simp [curve, product, times, x, ratioOf]

end RealReading

end SymbolicAlgebra
