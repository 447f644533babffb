import SymbolicAlgebra.Proofs.TabledCalls

/-! The table of antiderivatives with any simplifier: all its entries are antiderivatives if values
survive simplification. -/
namespace SymbolicAlgebra

namespace Expr

/-! ## The table -/

section Simplifier

variable (simplify : Expr → Expr)

/-- The antiderivative of `x ^ exponent`. -/
def integralOfVariablePowerUsing (x exponent : Expr) : Expr :=
  if exponent = ofInt (-1) then logOfAbs x
  else
    let raised := simplify (sum [exponent, one])
    div (pow x raised) raised

/-- Powers and exponentials of the symbol, and some squares of functions of it. -/
def integralOfPowerUsing? (name : String) (base exponent : Expr) : Option Expr :=
  let x := ident name
  if base = x ∧ !exponent.mentions name then some (integralOfVariablePowerUsing simplify x exponent)
  else if exponent = x ∧ !base.mentions name then
    some (if base.isIdent "e" then pow base exponent else div (pow base exponent) (ln base))
  else if exponent = ofInt 2 then
    match base with
    | .call f [arg] => if arg = x then integralOfSquare? x f else none
    | _ => none
  else none

/-- The antiderivative of `1 / √r`. -/
def integralOfRootReciprocalUsing? (x radicand : Expr) : Option Expr :=
  if radicand = simplify (sub one x.squared) then some (apply (.arcCircular .sin) x)
  else if radicand = simplify (sum [x.squared, one]) then some (apply (.arcHyperbolic .sin) x)
  else if radicand = simplify (sub x.squared one) then some (apply (.arcHyperbolic .cos) x)
  else none

/-- The antiderivative of `1 / x ^ n`. -/
def integralOfNegatedPowerUsing? (x : Expr) : Expr → Option Expr
  | .node .power [base, .number n] =>
    if base = x then some (integralOfVariablePowerUsing simplify x (.number n.neg)) else none
  | _ => none

/-- The antiderivative of `1 / d`. -/
def integralOfReciprocalUsing? (x d : Expr) : Option Expr :=
  let negatedPower := integralOfNegatedPowerUsing? simplify x d
  if d = x then some (logOfAbs x)
  else if negatedPower.isSome then negatedPower
  else if d = simplify (sum [x.squared, one]) then some (apply (.arcCircular .tan) x)
  else if d = simplify (sub one x.squared) then some (apply (.arcHyperbolic .tan) x)
  else (d.argument? .sqrt).bind (integralOfRootReciprocalUsing? simplify x)

/-- The closed form of an antiderivative, for the forms in the table. -/
def tabledIntegralUsing? (name : String) (e : Expr) : Option Expr :=
  let x := ident name
  match e with
  | .ident n => if n = name then some x.squared.half else none
  | .call f [arg] => if arg = x then integralOfCall? x f else none
  | .node .power [base, exponent] => integralOfPowerUsing? simplify name base exponent
  | .node .divide [n, d] =>
    if n.mentions name then none
    else
      (integralOfReciprocalUsing? simplify x d).map fun reciprocal =>
        if n.isOne then reciprocal else product [n, reciprocal]
  | .node .multiply [.call f [u], .call g [v]] =>
    if u = x ∧ v = x then integralOfPair? x f g <|> integralOfPair? x g f else none
  | _ => none

end Simplifier

/-- The integrator's table is the one with the normal form. -/
theorem tabledIntegral?_eq : tabledIntegral? = tabledIntegralUsing? normalForm := rfl

end Expr

namespace RealReading

open Filter Topology
open DifferentialReading (value?_div value?_one value?_plus value?_pow value?_times)

variable {R : RealReading} {x : String} {t u v w : ℝ} {simplify : Expr → Expr} {F : Expr}

/-- Simplified expressions have the values that they had. -/
def Keeps (R : RealReading) (x : String) (simplify : Expr → Expr) : Prop :=
  ∀ e t v, R.curve x e t = some v → R.curve x (simplify e) t = some v

/-! ## Powers and exponentials -/

theorem curve_raised (keeps : R.Keeps x simplify) {exponent : Expr} {c : ℝ}
    (h : R.curve x exponent t = some c) :
    R.curve x (simplify (.sum [exponent, .one])) t = some (c + 1) :=
  keeps _ _ _ (value?_plus.mpr ⟨c, h, 1, value?_one, rfl⟩)

theorem antiderivative_variablePower (keeps : R.Keeps x simplify) {exponent : Expr}
    (free : exponent.mentions x = false) :
    R.IsAntiderivative x (Expr.integralOfVariablePowerUsing simplify (.ident x) exponent)
      (.pow (.ident x) exponent) := by
  unfold Expr.integralOfVariablePowerUsing
  split
  · rename_i minus
    subst minus
    refine .of_formula Real.log fun t v w hv hw => ?_
    obtain ⟨nonzero, rfl⟩ : t ≠ 0 ∧ Real.log t = v := by simpa [curve] using hv
    have power : R.power? t (-1) = some t⁻¹ :=
      power?_neg (by simpa using power?_natCast (R := R) t 1) nonzero
    obtain rfl : t⁻¹ = w := by simpa [curve, power] using hw
    exact ⟨rfl, fun _ _ => Real.hasDerivAt_log nonzero⟩
  · rcases constant_or_none (R := R) free with ⟨c, constant⟩ | none
    · have raised (t : ℝ) := curve_raised keeps (constant t)
      let p (t : ℝ) : ℝ := (R.power? t (c + 1)).getD 0
      have power {t v : ℝ} (h : R.curve x (.div (.pow (.ident x) (simplify (.sum [exponent, .one])))
          (simplify (.sum [exponent, .one]))) t = some v) :
          R.power? t (c + 1) = some (p t) ∧ c + 1 ≠ 0 ∧ p t / (c + 1) = v := by
        obtain ⟨q, found, nonzero, rfl⟩ : ∃ q, R.power? t (c + 1) = some q ∧ c + 1 ≠ 0 ∧
            q / (c + 1) = v := by
          simpa [curve, show (R.reading x t).value? _ = _ from raised t] using h
        simp [p, found, nonzero]
      refine .of_formula (fun t => p t / (c + 1)) fun t v w hv hw => ?_
      obtain ⟨-, nonzero, rfl⟩ := power hv
      have hw : R.power? t c = some w := by
        simpa [curve, show (R.reading x t).value? _ = _ from constant t] using hw
      refine ⟨rfl, fun near differentiable => ?_⟩
      have near : ∀ᶠ s in 𝓝 t, R.power? s (c + 1) = some (p s) := near.mono fun s valued => by
        obtain ⟨⟨v, hv⟩, -⟩ := valued
        exact (power hv).1
      have differentiable : DifferentiableAt ℝ p t := by
        simpa [mul_div_cancel₀ _ nonzero] using differentiable.const_mul (c + 1)
      refine ((hasDerivAt_power near hw differentiable).div_const (c + 1)).congr_deriv ?_
      rw [mul_div_cancel_left₀ _ nonzero]
    · refine .of_none fun t => Option.eq_none_iff_forall_ne_some.mpr fun w hw => ?_
      obtain ⟨-, -, c, hc, -⟩ := value?_pow.mp hw
      cases (none t).symm.trans hc

theorem antiderivative_exponential {base : Expr} (free : base.mentions x = false) :
    R.IsAntiderivative x
      (if base.isIdent "e" then .pow base (.ident x) else .div (.pow base (.ident x)) (.ln base))
      (.pow base (.ident x)) := by
  split
  · rename_i euler
    obtain rfl : base = .ident "e" := Expr.eq_ident_of_isIdent euler
    have other : "e" ≠ x := by simpa using free
    have power (t : ℝ) {v : ℝ} (h : R.curve x (.pow (.ident "e") (.ident x)) t = some v) :
        Real.exp t = v := by
      have value : R.power? (Real.exp 1) t = some v := by
        simpa [curve, reading_ident_of_ne other, R.euler] using h
      rw [← power?_of_nonneg (Real.exp_pos 1).le value, Real.exp_one_rpow]
    refine .of_formula Real.exp fun t v w hv hw => ⟨power t hv, fun _ _ => ?_⟩
    exact (Real.hasDerivAt_exp t).congr_deriv (power t hw)
  · rcases constant_or_none (R := R) free with ⟨b, constant⟩ | none
    · refine .of_formula (fun t => b ^ t / Real.log b) fun t v w hv hw => ?_
      obtain ⟨p, hp, positive, nonzero, rfl⟩ : ∃ p, R.power? b t = some p ∧ 0 < b ∧
          Real.log b ≠ 0 ∧ p / Real.log b = v := by
        simpa [curve, show (R.reading x t).value? _ = _ from constant t] using hv
      have hw : R.power? b t = some w := by
        simpa [curve, show (R.reading x t).value? _ = _ from constant t] using hw
      rw [power?_of_pos positive, Option.some.injEq] at hp hw
      subst hp hw
      refine ⟨rfl, fun _ _ => ?_⟩
      have slope := (Real.hasStrictDerivAt_const_rpow positive t).hasDerivAt
      refine (slope.div_const (Real.log b)).congr_deriv (mul_div_cancel_right₀ _ nonzero)
    · refine .of_none fun t => Option.eq_none_iff_forall_ne_some.mpr fun w hw => ?_
      obtain ⟨b, hb, -⟩ := value?_pow.mp hw
      cases (none t).symm.trans hb

theorem antiderivative_power (keeps : R.Keeps x simplify) {base exponent : Expr}
    (found : Expr.integralOfPowerUsing? simplify x base exponent = some F) :
    R.IsAntiderivative x F (.pow base exponent) := by
  unfold Expr.integralOfPowerUsing? at found
  dsimp only at found
  split at found
  · rename_i variablePower
    obtain ⟨rfl, free⟩ := variablePower
    cases found
    exact antiderivative_variablePower keeps (by simpa using free)
  split at found
  · rename_i exponential
    obtain ⟨rfl, free⟩ := exponential
    cases found
    exact antiderivative_exponential (by simpa using free)
  split at found
  · rename_i square
    subst square
    split at found
    · split at found
      · rename_i symbol
        subst symbol
        exact antiderivative_square found
      · cases found
    · cases found
  · cases found

/-! ## Reciprocals -/

/-- A free numerator is a constant factor. -/
theorem antiderivative_numerator {n d : Expr} (free : n.mentions x = false)
    (h : R.IsAntiderivative x F (.div .one d)) :
    R.IsAntiderivative x (.product [n, F]) (.div n d) := by
  rcases constant_or_none (R := R) free with ⟨c, constant⟩ | none
  · refine h.add_mul c 0 fun t v w hv hw => ?_
    obtain ⟨_, hc, p, hp, rfl⟩ := value?_times.mp hv
    obtain rfl := Option.some.inj ((constant t).symm.trans hc)
    obtain ⟨_, hc, u, hu, nonzero, rfl⟩ := value?_div.mp hw
    obtain rfl := Option.some.inj ((constant t).symm.trans hc)
    refine ⟨p, 1 / u, hp, value?_div.mpr ⟨1, value?_one, u, hu, nonzero, rfl⟩, zero_add _, ?_⟩
    exact (hasDerivAt_const t 0).congr_deriv (by rw [mul_one_div, sub_self])
  · refine .of_none fun t => Option.eq_none_iff_forall_ne_some.mpr fun w hw => ?_
    obtain ⟨c, hc, -⟩ := value?_div.mp hw
    cases (none t).symm.trans hc

section Simplified

variable (keeps : R.Keeps x simplify)
include keeps

theorem curve_squarePlusOne (t : ℝ) :
    R.curve x (simplify (.sum [(Expr.ident x).squared, .one])) t = some (t ^ 2 + 1) :=
  keeps _ _ _ (by simp [curve])

theorem curve_oneMinusSquare (t : ℝ) :
    R.curve x (simplify (.sub .one (Expr.ident x).squared)) t = some (1 - t ^ 2) :=
  keeps _ _ _ (by simp [curve])

theorem curve_squareMinusOne (t : ℝ) :
    R.curve x (simplify (.sub (Expr.ident x).squared .one)) t = some (t ^ 2 - 1) :=
  keeps _ _ _ (by simp [curve])

theorem antiderivative_rootReciprocal {radicand : Expr}
    (found : Expr.integralOfRootReciprocalUsing? simplify (.ident x) radicand = some F) :
    R.IsAntiderivative x F (.div .one (.apply .sqrt radicand)) := by
  have reciprocal {t w r : ℝ} (hr : R.curve x radicand t = some r)
      (hw : R.curve x (.div .one (.apply .sqrt radicand)) t = some w) : 0 < r ∧ 1 / √r = w := by
    obtain ⟨nonneg, nonzero, rfl⟩ : 0 ≤ r ∧ √r ≠ 0 ∧ 1 / √r = w := by
      simpa [curve, show (R.reading x t).value? _ = _ from hr] using hw
    exact ⟨Real.sqrt_ne_zero'.mp nonzero, rfl⟩
  unfold Expr.integralOfRootReciprocalUsing? at found
  split at found
  · rename_i same
    cases found
    refine .of_formula Real.arcsin fun t v w hv hw => ?_
    obtain ⟨inside, rfl⟩ : |t| ≤ 1 ∧ Real.arcsin t = v := by simpa [curve] using hv
    obtain ⟨positive, rfl⟩ := reciprocal (same ▸ curve_oneMinusSquare keeps t) hw
    have strict : |t| < 1 := (sq_lt_one_iff_abs_lt_one t).mp (by linarith)
    obtain ⟨left, right⟩ := abs_lt.mp strict
    exact ⟨rfl, fun _ _ => Real.hasDerivAt_arcsin left.ne' right.ne⟩
  split at found
  · rename_i same
    cases found
    refine .of_formula Real.arsinh fun t v w hv hw => ?_
    obtain rfl : Real.arsinh t = v := by simpa [curve] using hv
    obtain ⟨positive, rfl⟩ := reciprocal (same ▸ curve_squarePlusOne keeps t) hw
    exact ⟨rfl, fun _ _ => (Real.hasDerivAt_arsinh t).congr_deriv (by rw [one_div, add_comm])⟩
  split at found
  · rename_i same
    cases found
    refine .of_formula Real.arcosh fun t v w hv hw => ?_
    obtain ⟨above, rfl⟩ : 1 ≤ t ∧ Real.arcosh t = v := by simpa [curve] using hv
    obtain ⟨positive, rfl⟩ := reciprocal (same ▸ curve_squareMinusOne keeps t) hw
    have strict : 1 < t := by nlinarith
    exact ⟨rfl, fun _ _ => (Real.hasDerivAt_arcosh strict).congr_deriv (one_div _).symm⟩
  · cases found

theorem antiderivative_negatedPower {d : Expr}
    (found : Expr.integralOfNegatedPowerUsing? simplify (.ident x) d = some F) :
    R.IsAntiderivative x F (.div .one d) := by
  unfold Expr.integralOfNegatedPowerUsing? at found
  split at found
  · rename_i n
    simp only [Option.ite_none_right_eq_some, Option.some.injEq] at found
    obtain ⟨rfl, rfl⟩ := found
    refine (antiderivative_variablePower keeps (Expr.mentions_number _)).of_value fun t w hw => ?_
    obtain ⟨_, one, p, hp, nonzero, rfl⟩ := value?_div.mp hw
    obtain rfl := Option.some.inj (value?_one.symm.trans one)
    obtain ⟨_, hx, c, number, power⟩ := value?_pow.mp hp
    obtain rfl : t = _ := by simpa using hx
    refine value?_pow.mpr ⟨t, by simp, -c, ?_, ?_⟩
    · exact reading_numerals.neg number
    · rw [one_div]
      exact power?_neg power nonzero
  · cases found

theorem antiderivative_reciprocal {d : Expr}
    (found : Expr.integralOfReciprocalUsing? simplify (.ident x) d = some F) :
    R.IsAntiderivative x F (.div .one d) := by
  have reciprocal {t w u : ℝ} (hd : R.curve x d t = some u)
      (hw : R.curve x (.div .one d) t = some w) : u ≠ 0 ∧ 1 / u = w := by
    simpa [curve, show (R.reading x t).value? _ = _ from hd] using hw
  unfold Expr.integralOfReciprocalUsing? at found
  dsimp only at found
  split at found
  · rename_i symbol
    subst symbol
    cases found
    refine .of_formula Real.log fun t v w hv hw => ?_
    obtain ⟨nonzero, rfl⟩ : t ≠ 0 ∧ Real.log t = v := by simpa [curve] using hv
    obtain ⟨-, rfl⟩ := reciprocal (u := t) (by simp [curve]) hw
    exact ⟨rfl, fun _ _ => (Real.hasDerivAt_log nonzero).congr_deriv (one_div t).symm⟩
  split at found
  · exact antiderivative_negatedPower keeps found
  split at found
  · rename_i same
    cases found
    refine .of_formula Real.arctan fun t v w hv hw => ?_
    obtain rfl : Real.arctan t = v := by simpa [curve] using hv
    obtain ⟨-, rfl⟩ := reciprocal (same ▸ curve_squarePlusOne keeps t) hw
    exact ⟨rfl, fun _ _ => (Real.hasDerivAt_arctan t).congr_deriv (by rw [add_comm])⟩
  split at found
  · rename_i same
    cases found
    refine .of_formula Real.artanh fun t v w hv hw => ?_
    obtain ⟨inside, rfl⟩ : |t| < 1 ∧ Real.artanh t = v := by simpa [curve] using hv
    obtain ⟨-, rfl⟩ := reciprocal (same ▸ curve_oneMinusSquare keeps t) hw
    exact ⟨rfl, fun _ _ => hasDerivAt_artanh inside⟩
  · obtain ⟨radicand, root, found⟩ := Option.bind_eq_some_iff.mp found
    obtain rfl := Expr.eq_apply_of_argument? root
    exact antiderivative_rootReciprocal keeps found

theorem antiderivative_tabled {e : Expr} (found : e.tabledIntegralUsing? simplify x = some F) :
    R.IsAntiderivative x F e := by
  unfold Expr.tabledIntegralUsing? at found
  dsimp only at found
  split at found
  · simp only [Option.ite_none_right_eq_some, Option.some.injEq] at found
    obtain ⟨rfl, rfl⟩ := found
    refine .of_formula (fun t => t ^ 2 / 2) fun t v w hv hw => ?_
    obtain rfl : t ^ 2 / 2 = v := by simpa [curve] using hv
    obtain rfl : t = w := by simpa [curve] using hw
    exact ⟨rfl, fun _ _ => ((hasDerivAt_pow 2 t).div_const 2).congr_deriv (by ring)⟩
  · simp only [Option.ite_none_right_eq_some] at found
    obtain ⟨rfl, found⟩ := found
    exact antiderivative_call found
  · exact antiderivative_power keeps found
  · simp only [Option.ite_none_left_eq_some, Option.map_eq_some_iff] at found
    obtain ⟨free, reciprocal, found, rfl⟩ := found
    have h := antiderivative_reciprocal keeps found
    split
    · rename_i one
      refine h.of_value fun t w hw => ?_
      obtain ⟨_, hn, u, hu, nonzero, rfl⟩ := value?_div.mp hw
      obtain rfl := reading_numerals.value?_isOne one hn
      exact value?_div.mpr ⟨1, value?_one, u, hu, nonzero, rfl⟩
    · exact antiderivative_numerator (by simpa using free) h
  · simp only [Option.ite_none_right_eq_some, Option.orElse_eq_orElse, Option.orElse_eq_or,
      Option.or_eq_some_iff] at found
    obtain ⟨⟨rfl, rfl⟩, found | ⟨-, found⟩⟩ := found
    · exact antiderivative_pair found
    · refine (antiderivative_pair found).of_value fun t w hw => ?_
      obtain ⟨p, hp, q, hq, rfl⟩ := value?_times.mp hw
      exact value?_times.mpr ⟨q, hq, p, hp, mul_comm q p⟩
  · cases found

end Simplified

end RealReading

end SymbolicAlgebra
