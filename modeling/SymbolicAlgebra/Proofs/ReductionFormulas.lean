import SymbolicAlgebra.Calculus.Methods
import SymbolicAlgebra.Proofs.Powers
import SymbolicAlgebra.Proofs.TabledIntegrals

/-! The reduction formulas for powers of circular and hyperbolic functions, and products of sines
and cosines as sums: with antiderivatives of what is left they give antiderivatives. -/
namespace SymbolicAlgebra

/-! ## What is left to integrate -/

/-- The lower power that a reduction formula leaves. -/
def loweredPower? (x : String) (e : Expr) : Option Expr :=
  (functionPower? x e).map fun power => (Expr.apply power.1 (.ident x)).raised (power.2 - 2)

theorem functionPower?_spec {x : String} {e : Expr} {f : NamedFunction} {n : Int}
    (found : functionPower? x e = some (f, n)) :
    e = .pow (.apply f (.ident x)) (.ofInt n) ∧ 2 ≤ n := by
  unfold functionPower? at found
  split at found
  · rename_i y
    split at found
    · rename_i k word
      simp only [Option.ite_none_right_eq_some, Option.some.injEq, Prod.mk.injEq] at found
      obtain ⟨⟨low, -, symbol⟩, rfl, rfl⟩ := found
      have integer : (Expr.number y).number?.bind Numeral.int64? = some k := word
      rw [Expr.eq_ident_of_isIdent symbol, Expr.eq_of_wordExponent integer]
      exact ⟨rfl, low⟩
    · cases found
  · cases found

section Simplifier

variable (simplify : Expr → Expr) (x : String)

/-- A term without its sign, and whether it had one. -/
def dropSignUsing (e : Expr) : Expr × Bool :=
  if e.asMultiple.1.isNegative then (simplify e.negate, true) else (e, false)

/-- Half the sum by sum and difference of the arguments, neither of which may be zero. -/
def halfSumUsing? (someSine allSine : Bool) (first second : Expr) : Option Expr :=
  let total := simplify (.sum [first, second])
  let (difference, flipped) := dropSignUsing simplify (simplify (.sub first second))
  if total.isZero || difference.isZero then none
  else some (simplify (.div (productToSum someSine allSine flipped total difference) (.ofInt 2)))

/-- A product of two sines or cosines of linear arguments as half a sum. -/
def sineProductUsing? (a b : Expr) : Option Expr := do
  let (aSine, u) ← linearSine? x a
  let (bSine, v) ← linearSine? x b
  let (first, second) := if !aSine && bSine then (v, u) else (u, v)
  halfSumUsing? simplify (aSine || bSine) (aSine && bSine) first second

/-- The sum that a product of two factors leads to. -/
def sineSumUsing? : Expr → Option Expr
  | .node .multiply [a, b] => sineProductUsing? simplify x a b
  | _ => none

def integrateSineProductUsing (deeper : Integral) : Expr → Option Expr
  | .node .multiply [a, b] => (sineProductUsing? simplify x a b).bind (deeper.expr? x false)
  | _ => none

end Simplifier

theorem integrateSineProduct_eq (deeper : Integral) (x : String) :
    integrateSineProduct deeper x = integrateSineProductUsing normalForm x deeper := rfl

namespace RealReading

open DifferentialReading (value?_apply value?_div value?_factors value?_multiply_append
  value?_multiply_cons value?_number value?_ofInt value?_plus value?_pow value?_product_eq
  value?_sub value?_times)
open SymbolicAlgebra.Reading (ratioOf)

variable {R : RealReading} {x : String} {t u v w : ℝ} {F e : Expr}

/-! ## Values of products and powers -/

theorem value?_of_isOne {e : Expr} (one : e.isOne) : (R.reading x t).value? e = some 1 := by
  cases e with
  | number n => exact (value?_number n).trans (numeral?_of_isOne one)
  | complex | ident | call | node => cases one

theorem value?_withoutOnes (ts : List Expr) :
    (R.reading x t).value? (.node .multiply (ts.filter fun s => !s.isOne)) =
      (R.reading x t).value? (.node .multiply ts) := by
  refine Option.ext fun v => ⟨fun h => ?_, reading_numerals.value?_withoutOnes⟩
  induction ts generalizing v with
  | nil => exact h
  | cons s ts ih =>
    cases one : s.isOne with
    | true =>
      rw [List.filter_cons_of_neg (by simp [one])] at h
      exact value?_multiply_cons.mpr ⟨1, value?_of_isOne one, v, ih v h, one_mul v⟩
    | false =>
      rw [List.filter_cons_of_pos (by simp [one])] at h
      obtain ⟨p, hp, q, hq, rfl⟩ := value?_multiply_cons.mp h
      exact value?_multiply_cons.mpr ⟨p, hp, q, ih q hq, rfl⟩

/-- A product has a value only where its factors have. -/
theorem value?_mul_iff {a b : Expr} :
    (R.reading x t).value? (a.times b) = some v ↔
      ∃ p, (R.reading x t).value? a = some p ∧
        ∃ q, (R.reading x t).value? b = some q ∧ p * q = v := by
  rw [Expr.times, value?_product_eq, value?_withoutOnes, value?_multiply_append, value?_factors,
    value?_factors]

theorem value?_raised {base : Expr} {k : ℤ} {j : ℕ} (natural : k = j)
    (h : (R.reading x t).value? base = some u) :
    (R.reading x t).value? (base.raised k) = some (u ^ j) := by
  subst natural
  unfold Expr.raised
  split
  · rename_i zero
    obtain rfl : j = 0 := by exact_mod_cast zero
    simp
  split
  · rename_i one
    obtain rfl : j = 1 := by exact_mod_cast one
    rwa [pow_one]
  · exact value?_pow.mpr ⟨u, h, j, by simp, power?_natCast u j⟩

theorem value?_ratio {p q : ℤ} (nonzero : q ≠ 0) :
    (R.reading x t).value? (.ofNumeral (.ofQuotient p q)) = some (p / q : ℝ) := by
  rw [Numeral.ofQuotient, if_neg nonzero, Expr.ofNumeral, value?_ofRat, Rat.divInt_eq_div]
  push_cast
  rfl

/-! ## The formulas -/

/-- The weight is a number `c`, and wherever `f` has a value `u`, the boundary has the slope
`u ^ (m + 2) - c * u ^ m`. -/
inductive Lowers (R : RealReading) (x : String) (f : NamedFunction) (m : ℕ) (r : Reduction) : Prop
  | intro (c : ℝ) (B : ℝ → ℝ) (weight : ∀ t, R.curve x r.weight t = some c)
    (boundary : ∀ t u v, R.curve x (.apply f (.ident x)) t = some u →
      R.curve x r.boundary t = some v → B t = v ∧ HasDerivAt B (u ^ (m + 2) - c * u ^ m) t)

section Formulas

variable {f g : NamedFunction} {p q k : ℤ} {j m : ℕ} {weight : Expr} {c : ℝ}

/-- A boundary with a power of `f` and another function. -/
theorem lowers_mixed (a b : ℝ → ℝ) (natural : k = j) (nonzero : q ≠ 0)
    (hweight : ∀ t, R.curve x weight t = some c)
    (hf : ∀ t u, R.curve x (.apply f (.ident x)) t = some u → a t = u ∧
      HasDerivAt (fun t => p / q * (a t ^ j * b t)) (a t ^ (m + 2) - c * a t ^ m) t)
    (hg : ∀ t z, R.curve x (.apply g (.ident x)) t = some z → b t = z) :
    R.Lowers x f m ⟨(Expr.ofNumeral (.ofQuotient p q)).times
      (.product [(Expr.apply f (.ident x)).raised k, .apply g (.ident x)]), weight⟩ := by
  refine ⟨c, fun t => p / q * (a t ^ j * b t), hweight, fun t u v hu hv => ?_⟩
  obtain ⟨rfl, slope⟩ := hf t u hu
  refine ⟨?_, slope⟩
  obtain ⟨_, hc, _, hp, rfl⟩ := value?_mul_iff.mp hv
  obtain rfl := Option.some.inj ((value?_ratio nonzero).symm.trans hc)
  obtain ⟨_, hr, z, hz, rfl⟩ := value?_times.mp hp
  obtain rfl := Option.some.inj ((value?_raised natural hu).symm.trans hr)
  exact congrArg (fun z => p / q * (a t ^ j * z)) (hg t z hz)

/-- A boundary with a power of `f` alone. -/
theorem lowers_lone (a : ℝ → ℝ) (natural : k = j) (nonzero : q ≠ 0)
    (hweight : ∀ t, R.curve x weight t = some c)
    (hf : ∀ t u, R.curve x (.apply f (.ident x)) t = some u → a t = u ∧
      HasDerivAt (fun t => p / q * a t ^ j) (a t ^ (m + 2) - c * a t ^ m) t) :
    R.Lowers x f m ⟨(Expr.ofNumeral (.ofQuotient p q)).times
      ((Expr.apply f (.ident x)).raised k), weight⟩ := by
  refine ⟨c, fun t => p / q * a t ^ j, hweight, fun t u v hu hv => ?_⟩
  obtain ⟨rfl, slope⟩ := hf t u hu
  refine ⟨?_, slope⟩
  obtain ⟨_, hc, _, hr, rfl⟩ := value?_mul_iff.mp hv
  obtain rfl := Option.some.inj ((value?_ratio nonzero).symm.trans hc)
  obtain rfl := Option.some.inj ((value?_raised natural hu).symm.trans hr)
  rfl

end Formulas

theorem cast_below (m : ℕ) : ((m + 2 - 1 : ℤ) : ℝ) = m + 1 := by
  push_cast
  ring

/-! ### For circular and hyperbolic functions at once -/

section Ratios

variable (family : Ratio → NamedFunction) {sine cosine : ℝ → ℝ} {s : ℝ} {m : ℕ} {p a : ℤ}
  (h : RatioSlopes sine cosine s)
  (reads : ∀ q t u, (R.reading x t).call? (family q) [u] = ratioOf sine cosine q u)
include h reads

theorem lowers_sine (unit : s * s = 1) (hp : (p : ℝ) = -s) (ha : (a : ℝ) = s * (m + 1)) :
    R.Lowers x (family .sin) m ⟨(Expr.ofNumeral (.ofQuotient p (m + 2))).times
      (.product [(Expr.apply (family .sin) (.ident x)).raised (m + 2 - 1),
        .apply (family .cos) (.ident x)]), .ofNumeral (.ofQuotient a (m + 2))⟩ := by
  refine lowers_mixed sine cosine (j := m + 1) (by push_cast; ring) (by omega)
    (fun t => value?_ratio (by omega)) (fun t u hu => ⟨?_, ?_⟩) fun t z hz => ?_
  · simpa [curve, reads, ratioOf] using hu
  · refine ((h.sine_power m).const_mul _).congr_deriv ?_
    push_cast
    rw [hp, ha]
    field_simp
    linear_combination (m + 2) * sine t ^ (m + 2) * unit
  · simpa [curve, reads, ratioOf] using hz

theorem lowers_cosine :
    R.Lowers x (family .cos) m ⟨(Expr.ofNumeral (.ofQuotient 1 (m + 2))).times
      (.product [(Expr.apply (family .cos) (.ident x)).raised (m + 2 - 1),
        .apply (family .sin) (.ident x)]), .ofNumeral (.ofQuotient (m + 2 - 1) (m + 2))⟩ := by
  refine lowers_mixed cosine sine (j := m + 1) (by push_cast; ring) (by omega)
    (fun t => value?_ratio (by omega)) (fun t u hu => ⟨?_, ?_⟩) fun t z hz => ?_
  · simpa [curve, reads, ratioOf] using hu
  · refine ((h.cosine_power m).const_mul _).congr_deriv ?_
    push_cast
    field_simp
    ring
  · simpa [curve, reads, ratioOf] using hz

theorem lowers_tangent (unit : s * s = 1) (hp : (p : ℝ) = s) (ha : (a : ℝ) = -s) :
    R.Lowers x (family .tan) m ⟨(Expr.ofNumeral (.ofQuotient p (m + 2 - 1))).times
      ((Expr.apply (family .tan) (.ident x)).raised (m + 2 - 1)), .ofInt a⟩ := by
  refine lowers_lone (fun t => sine t / cosine t) (j := m + 1) (by push_cast; ring) (by omega)
    (fun t => value?_ofInt a) fun t u hu => ?_
  obtain ⟨nonzero, rfl⟩ : cosine t ≠ 0 ∧ sine t / cosine t = u := by
    simpa [curve, reads, ratioOf] using hu
  refine ⟨rfl, ((h.tan_power m nonzero).const_mul _).congr_deriv ?_⟩
  have positive : (m + 1 : ℝ) ≠ 0 := by positivity
  rw [cast_below, hp, ha, ← mul_assoc, div_mul_cancel₀ _ positive]
  linear_combination (sine t / cosine t) ^ (m + 2) * unit

theorem lowers_cotangent (ha : (a : ℝ) = -s) :
    R.Lowers x (family .cot) m ⟨(Expr.ofNumeral (.ofQuotient (-1) (m + 2 - 1))).times
      ((Expr.apply (family .cot) (.ident x)).raised (m + 2 - 1)), .ofInt a⟩ := by
  refine lowers_lone (fun t => cosine t / sine t) (j := m + 1) (by push_cast; ring) (by omega)
    (fun t => value?_ofInt a) fun t u hu => ?_
  obtain ⟨nonzero, rfl⟩ : sine t ≠ 0 ∧ cosine t / sine t = u := by
    simpa [curve, reads, ratioOf] using hu
  refine ⟨rfl, ((h.cot_power m nonzero).const_mul _).congr_deriv ?_⟩
  have positive : (m + 1 : ℝ) ≠ 0 := by positivity
  rw [cast_below, ha, neg_mul, mul_neg, ← mul_assoc, Int.cast_neg, Int.cast_one, neg_div,
    neg_mul, div_mul_cancel₀ _ positive]
  ring

theorem lowers_secant :
    R.Lowers x (family .sec) m ⟨(Expr.ofNumeral (.ofQuotient 1 (m + 2 - 1))).times
      (.product [(Expr.apply (family .sec) (.ident x)).raised (m + 2 - 2),
        .apply (family .tan) (.ident x)]), .ofNumeral (.ofQuotient (m + 2 - 2) (m + 2 - 1))⟩ := by
  refine lowers_mixed (fun t => 1 / cosine t) (fun t => sine t / cosine t) (j := m) (by ring)
    (by omega) (fun t => value?_ratio (by omega)) (fun t u hu => ?_) fun t z hz => ?_
  · obtain ⟨nonzero, rfl⟩ : cosine t ≠ 0 ∧ 1 / cosine t = u := by
      simpa [curve, reads, ratioOf] using hu
    refine ⟨rfl, ((h.sec_power m nonzero).const_mul _).congr_deriv ?_⟩
    rw [cast_below]
    push_cast
    field_simp
    ring
  · exact (show cosine t ≠ 0 ∧ sine t / cosine t = z by simpa [curve, reads, ratioOf] using hz).2

theorem lowers_cosecant (circular : s = 1) :
    R.Lowers x (family .csc) m ⟨(Expr.ofNumeral (.ofQuotient (-1) (m + 2 - 1))).times
      (.product [(Expr.apply (family .csc) (.ident x)).raised (m + 2 - 2),
        .apply (family .cot) (.ident x)]), .ofNumeral (.ofQuotient (m + 2 - 2) (m + 2 - 1))⟩ := by
  refine lowers_mixed (fun t => 1 / sine t) (fun t => cosine t / sine t) (j := m) (by ring)
    (by omega) (fun t => value?_ratio (by omega)) (fun t u hu => ?_) fun t z hz => ?_
  · obtain ⟨nonzero, rfl⟩ : sine t ≠ 0 ∧ 1 / sine t = u := by
      simpa [curve, reads, ratioOf] using hu
    refine ⟨rfl, ((h.csc_power m nonzero).const_mul _).congr_deriv ?_⟩
    rw [cast_below, circular]
    push_cast
    field_simp
    ring
  · exact (show sine t ≠ 0 ∧ cosine t / sine t = z by simpa [curve, reads, ratioOf] using hz).2

end Ratios

theorem lowers_reductionOf {f : NamedFunction} {m : ℕ} {r : Reduction}
    (found : reductionOf? x (m + 2) f = some r) : R.Lowers x f m r := by
  unfold reductionOf? at found
  dsimp only at found
  split at found <;> cases found
  case h_1 =>
    exact lowers_sine .circular circularSlopes (fun _ _ _ => rfl) (by norm_num) (by norm_num)
      (by push_cast; ring)
  case h_2 => exact lowers_cosine .circular circularSlopes fun _ _ _ => rfl
  case h_3 =>
    exact lowers_sine .hyperbolic hyperbolicSlopes (fun _ _ _ => rfl) (by norm_num) (by norm_num)
      (by push_cast; ring)
  case h_4 => exact lowers_cosine .hyperbolic hyperbolicSlopes fun _ _ _ => rfl
  case h_5 => exact lowers_secant .circular circularSlopes fun _ _ _ => rfl
  case h_6 => exact lowers_cosecant .circular circularSlopes (fun _ _ _ => rfl) rfl
  case h_7 =>
    exact lowers_tangent .circular circularSlopes (fun _ _ _ => rfl) (by norm_num) (by norm_num)
      (by norm_num)
  case h_8 =>
    exact lowers_cotangent .circular circularSlopes (fun _ _ _ => rfl) (by norm_num)
  case h_9 =>
    exact lowers_tangent .hyperbolic hyperbolicSlopes (fun _ _ _ => rfl) (by norm_num)
      (by norm_num) (by norm_num)
  case h_10 =>
    exact lowers_cotangent .hyperbolic hyperbolicSlopes (fun _ _ _ => rfl) (by norm_num)

/-- With an antiderivative of the power that is left, a reduction formula gives one. -/
theorem antiderivative_reduced {deeper : Integral} (found : integrateReduced deeper x e = some F)
    (lower : ∀ d G, loweredPower? x e = some d → deeper.expr? x false d = some G →
      R.IsAntiderivative x G d) :
    R.IsAntiderivative x F e := by
  obtain ⟨⟨f, n⟩, power, reduced⟩ := Option.bind_eq_some_iff.mp found
  obtain ⟨r, formula, answer⟩ := Option.bind_eq_some_iff.mp reduced
  obtain ⟨rfl, low⟩ := functionPower?_spec power
  obtain ⟨m, rfl⟩ : ∃ m : ℕ, n = m + 2 := ⟨(n - 2).toNat, by omega⟩
  obtain ⟨c, B, weight, boundary⟩ : R.Lowers x f m r := lowers_reductionOf formula
  have values {t w : ℝ}
      (hw : R.curve x (.pow (.apply f (.ident x)) (.ofInt (m + 2))) t = some w) :
      ∃ u, R.curve x (.apply f (.ident x)) t = some u ∧ u ^ (m + 2) = w := by
    obtain ⟨u, hu, _, hn, hw⟩ := value?_pow.mp hw
    obtain rfl : ((m + 2 : ℕ) : ℝ) = _ := by simpa using hn
    exact ⟨u, hu, Option.some.inj ((power?_natCast u (m + 2)).symm.trans hw)⟩
  split at answer
  · -- Nothing is left: the boundary alone is the answer.
    rename_i zero
    cases answer
    refine .of_formula B fun t v w hv hw => ?_
    obtain ⟨u, hu, rfl⟩ := values hw
    obtain ⟨same, slope⟩ := boundary t u v hu hv
    rw [reading_numerals.value?_isZero zero (weight t), zero_mul, sub_zero] at slope
    exact ⟨same, fun _ _ => slope⟩
  · obtain ⟨rest, integrated, same⟩ := Option.bind_eq_some_iff.mp answer
    cases same
    have antiderivative := lower _ rest (by rw [loweredPower?, power]; rfl) integrated
    refine antiderivative.add_mul c B fun t v w hv hw => ?_
    obtain ⟨u, hu, rfl⟩ := values hw
    obtain ⟨b, hb, _, hr, rfl⟩ := value?_plus.mp hv
    obtain ⟨same, slope⟩ := boundary t u b hu hb
    obtain ⟨_, hc, p, hp, rfl⟩ := value?_mul_iff.mp hr
    obtain rfl := Option.some.inj ((weight t).symm.trans hc)
    exact ⟨p, u ^ m, hp, value?_raised (by ring) hu, by rw [same], slope⟩

/-! ## Products of sines and cosines -/

/-- The sine or the cosine. -/
noncomputable def sineIf (sine : Bool) (u : ℝ) : ℝ := if sine then Real.sin u else Real.cos u

theorem linearSine?_spec {sine : Bool} {arg : Expr} (found : linearSine? x e = some (sine, arg))
    (hv : R.curve x e t = some v) : ∃ u, R.curve x arg t = some u ∧ sineIf sine u = v := by
  unfold linearSine? at found
  split at found
  · simp only [Option.ite_none_right_eq_some, Option.some.injEq, Prod.mk.injEq] at found
    obtain ⟨-, rfl, rfl⟩ := found
    simpa [curve, ratioOf, sineIf] using hv
  · simp only [Option.ite_none_right_eq_some, Option.some.injEq, Prod.mk.injEq] at found
    obtain ⟨-, rfl, rfl⟩ := found
    simpa [curve, ratioOf, sineIf] using hv
  · cases found

/-- The sum is twice the product. The sine comes first in a product of a sine and a cosine. -/
theorem curve_productToSum {aSine bSine flipped : Bool} {total difference : Expr} {p q : ℝ}
    (ordered : aSine = false → bSine = false) (htotal : R.curve x total t = some (p + q))
    (hdifference : R.curve x difference t = some (if flipped then -(p - q) else p - q)) :
    R.curve x (productToSum (aSine || bSine) (aSine && bSine) flipped total difference) t =
      some (2 * (sineIf aSine p * sineIf bSine q)) := by
  have cosTotal : R.curve x (.apply .cos total) t = some (Real.cos (p + q)) :=
    value?_apply.mpr ⟨_, htotal, rfl⟩
  have sinTotal : R.curve x (.apply .sin total) t = some (Real.sin (p + q)) :=
    value?_apply.mpr ⟨_, htotal, rfl⟩
  have cosDifference : R.curve x (.apply .cos difference) t = some (Real.cos (p - q)) := by
    refine value?_apply.mpr ⟨_, hdifference, congrArg some ?_⟩
    split
    · exact Real.cos_neg _
    · rfl
  have sinDifference : R.curve x (.apply .sin difference) t =
      some (if flipped then -Real.sin (p - q) else Real.sin (p - q)) := by
    refine value?_apply.mpr ⟨_, hdifference, congrArg some ?_⟩
    split
    · exact Real.sin_neg _
    · rfl
  cases aSine <;> cases bSine
  case false.false =>
    refine value?_plus.mpr ⟨_, cosDifference, _, cosTotal, ?_⟩
    simp only [sineIf, Real.cos_add, Real.cos_sub, Bool.false_eq_true, if_false]
    ring
  case false.true => cases ordered rfl
  case true.false =>
    cases flipped with
    | true =>
      refine value?_sub.mpr ⟨_, sinTotal, _, sinDifference, ?_⟩
      simp only [sineIf, Real.sin_add, Real.sin_sub, Bool.false_eq_true, if_true, if_false]
      ring
    | false =>
      refine value?_plus.mpr ⟨_, sinTotal, _, sinDifference, ?_⟩
      simp only [sineIf, Real.sin_add, Real.sin_sub, Bool.false_eq_true, if_true, if_false]
      ring
  case true.true =>
    refine value?_sub.mpr ⟨_, cosDifference, _, cosTotal, ?_⟩
    simp only [sineIf, Real.cos_add, Real.cos_sub, if_true]
    ring

section Simplified

variable {simplify : Expr → Expr} (keeps : R.Keeps x simplify)
include keeps

theorem curve_dropSign (hd : R.curve x e t = some v) :
    R.curve x (dropSignUsing simplify e).1 t =
      some (if (dropSignUsing simplify e).2 then -v else v) := by
  unfold dropSignUsing
  split
  · exact keeps _ _ _ (reading_numerals.value?_negate hd)
  · exact hd

theorem curve_halfSum {aSine bSine : Bool} {first second sum : Expr} {p q : ℝ}
    (ordered : aSine = false → bSine = false) (hp : R.curve x first t = some p)
    (hq : R.curve x second t = some q)
    (found : halfSumUsing? simplify (aSine || bSine) (aSine && bSine) first second = some sum) :
    R.curve x sum t = some (sineIf aSine p * sineIf bSine q) := by
  simp only [halfSumUsing?, Option.ite_none_left_eq_some, Option.some.injEq] at found
  obtain ⟨-, rfl⟩ := found
  have total := keeps _ _ _ (value?_plus.mpr ⟨p, hp, q, hq, rfl⟩)
  have difference := curve_dropSign keeps
    (keeps _ _ _ (value?_sub.mpr ⟨p, hp, q, hq, rfl⟩))
  have doubled := curve_productToSum ordered total difference
  refine keeps _ _ _ (value?_div.mpr ⟨_, doubled, 2, value?_ofInt 2, two_ne_zero, ?_⟩)
  rw [mul_div_cancel_left₀ _ two_ne_zero]

theorem curve_sineProduct {a b sum : Expr} (found : sineProductUsing? simplify x a b = some sum)
    {p q : ℝ} (ha : R.curve x a t = some p) (hb : R.curve x b t = some q) :
    R.curve x sum t = some (p * q) := by
  obtain ⟨⟨aSine, u⟩, first, rest⟩ := Option.bind_eq_some_iff.mp found
  obtain ⟨⟨bSine, v⟩, second, halved⟩ := Option.bind_eq_some_iff.mp rest
  obtain ⟨p, hu, rfl⟩ := linearSine?_spec first ha
  obtain ⟨q, hv, rfl⟩ := linearSine?_spec second hb
  dsimp only at halved
  split at halved
  · rename_i swapped
    rw [Bool.or_comm, Bool.and_comm] at halved
    rw [mul_comm]
    exact curve_halfSum keeps (by simp_all) hv hu halved
  · exact curve_halfSum keeps (by simp_all) hu hv halved

theorem antiderivative_sineProduct {deeper : Integral}
    (found : integrateSineProductUsing simplify x deeper e = some F)
    (lower : ∀ d G, sineSumUsing? simplify x e = some d → deeper.expr? x false d = some G →
      R.IsAntiderivative x G d) :
    R.IsAntiderivative x F e := by
  unfold integrateSineProductUsing at found
  split at found
  · obtain ⟨sum, rewritten, integrated⟩ := Option.bind_eq_some_iff.mp found
    refine (lower sum F rewritten integrated).of_value fun t w hw => ?_
    obtain ⟨p, hp, q, hq, rfl⟩ := value?_times.mp hw
    exact curve_sineProduct keeps rewritten hp hq
  · cases found

end Simplified

end RealReading

end SymbolicAlgebra
