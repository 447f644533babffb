import Mathlib.Analysis.SpecialFunctions.Pow.Deriv
import SymbolicAlgebra.Proofs.DifferentialTerms
import SymbolicAlgebra.Proofs.FloatValues
import SymbolicAlgebra.Proofs.RealFunctions

/-! Expressions as real functions of one symbol, each where it has a value, and what it means that one
is an antiderivative of another. -/
namespace SymbolicAlgebra

open Filter Topology

/-- How expressions are read as real numbers. Floats are the numbers they stand for. -/
structure RealReading where
  ident : String → ℝ
  euler : ident "e" = Real.exp 1
  /-- All calls but those of known functions with one argument and of the logarithm to a base. -/
  others : NamedFunction → List ℝ → Option ℝ
  /-- The remainder, the bitwise operators and the shifts. -/
  integral? : Operator → List ℝ → Option ℝ
  /-- The sign of `(-1) ^ c`, where it is real: for integers, and for other numbers as one likes, as
  long as the next power has the opposite sign and the opposite power the same. -/
  sign? : ℝ → Option ℝ
  sign?_zero : sign? 0 = some 1
  sign?_add_one (c : ℝ) : sign? (c + 1) = (sign? c).map (-·)
  sign?_neg {c s : ℝ} : sign? c = some s → sign? (-c) = some s⁻¹

namespace RealReading

section Definitions

variable (R : RealReading) (x : String)

open Classical in
/-- The real power. Zero has the powers with exponents that are not negative, and `0 ^ 0` is one. -/
noncomputable def power? (b c : ℝ) : Option ℝ :=
  if b < 0 then (R.sign? c).map fun s => s * |b| ^ c else valueIf (b = 0 → 0 ≤ c) (b ^ c)

/-- The reading where the symbol has the value `t`. -/
noncomputable def reading (t : ℝ) : DifferentialReading ℝ where
  D := 0
  ident := Function.update R.ident x t
  float? f := some f.value.toReal
  unit? := none
  call? := realCall? R.others
  power? := R.power?
  integral? := R.integral?

/-- An expression as a partial function of the symbol. -/
noncomputable def curve (e : Expr) (t : ℝ) : Option ℝ := (R.reading x t).value? e

/-- On every open interval where both have values and those of `F` are differentiable, `e` is the
derivative of `F`. -/
def IsAntiderivative (F e : Expr) : Prop :=
  ∀ (a b : ℝ) (g f : ℝ → ℝ), (∀ t ∈ Set.Ioo a b, R.curve x F t = some (g t)) →
    (∀ t ∈ Set.Ioo a b, R.curve x e t = some (f t)) →
      (∀ t ∈ Set.Ioo a b, DifferentiableAt ℝ g t) → ∀ t ∈ Set.Ioo a b, HasDerivAt g (f t) t

end Definitions

variable {R : RealReading} {x : String} {t : ℝ}

/-! ## Values -/

theorem numeral?_of_isOne {n : Numeral} (one : n.isOne) : (R.reading x t).numeral? n = some 1 := by
  cases n with
  | exact r =>
    rw [DifferentialReading.numeral?_exact, (Numeral.isOne_exact r).mp one]
    simp
  | nan => cases one
  | float f =>
    have same : f.value = .one := by simpa [Numeral.isOne] using one
    exact congrArg some (by rw [same, Binary64.toReal_one])

theorem reading_numerals : (R.reading x t).ReadsNumerals where
  neg {n v} h := by
    cases n with
    | exact r => exact DifferentialReading.numeral?_neg_exact h
    | nan => cases h
    | float f =>
      obtain ⟨g, opposite, value⟩ := f.exists_neg
      cases h
      rw [opposite, ← value]
      rfl
  zero {n v} zero h := by
    cases n with
    | exact r =>
      obtain ⟨-, rfl⟩ := DifferentialReading.numeral?_exact.mp h
      rw [(Numeral.isZero_exact r).mp zero, Rat.cast_zero]
    | nan => cases h
    | float f =>
      cases h
      exact Binary64.toReal_of_isZero zero
  one one h := Option.some.inj (h.symm.trans (numeral?_of_isOne one))

@[simp] theorem reading_ident_self : (R.reading x t).ident x = t := Function.update_self ..

theorem reading_ident_of_ne {name : String} (other : name ≠ x) :
    (R.reading x t).ident name = R.ident name := Function.update_of_ne other ..

@[simp] theorem value?_ofRat (r : Rat) : (R.reading x t).value? (.ofRat r) = some (r : ℝ) := by
  rw [← Expr.ofNumeral, DifferentialReading.value?_ofNumeral, DifferentialReading.numeral?_exact]
  exact ⟨Nat.cast_ne_zero.mpr r.den_nz, rfl⟩

@[simp] theorem reading_power? : (R.reading x t).power? = R.power? := rfl

/-- Without the symbol an expression has the same value everywhere. -/
theorem curve_of_free {e : Expr} (free : e.mentions x = false) (s t : ℝ) :
    R.curve x e s = R.curve x e t := by
  have all {ts : List Expr} (h : ∀ u ∈ ts, R.curve x u s = R.curve x u t) :
      (R.reading x s).values? ts = (R.reading x t).values? ts := by
    induction ts with
    | nil => rfl
    | cons u ts ih =>
      rw [List.forall_mem_cons] at h
      rw [DifferentialReading.values?, DifferentialReading.values?, ih h.2,
        show (R.reading x s).value? u = (R.reading x t).value? u from h.1]
  unfold curve
  induction e with
  | number n => rfl
  | complex z => rfl
  | ident name =>
    have other : name ≠ x := by simpa using free
    rw [DifferentialReading.value?_ident, DifferentialReading.value?_ident,
      reading_ident_of_ne other, reading_ident_of_ne other]
  | call f ts ih =>
    rw [Expr.mentions_call, List.any_eq_false] at free
    rw [DifferentialReading.value?, DifferentialReading.value?,
      all fun u member => ih u member (by simpa using free u member)]
    rfl
  | node op ts ih =>
    rw [Expr.mentions_node, List.any_eq_false] at free
    rw [DifferentialReading.value?, DifferentialReading.value?,
      all fun u member => ih u member (by simpa using free u member)]
    rfl

/-- An expression without the symbol has one value, or none anywhere. -/
theorem constant_or_none {e : Expr} (free : e.mentions x = false) :
    (∃ c, ∀ t, R.curve x e t = some c) ∨ ∀ t, R.curve x e t = none := by
  cases value : R.curve x e 0 with
  | none => exact .inr fun t => (curve_of_free free t 0).trans value
  | some c => exact .inl ⟨c, fun t => (curve_of_free free t 0).trans value⟩

/-! ## Powers -/

section Powers

variable {b c v w : ℝ}

theorem power?_of_pos (positive : 0 < b) (c : ℝ) : R.power? b c = some (b ^ c) := by
  rw [power?, if_neg positive.not_gt, valueIf_eq_some]
  exact ⟨fun zero => absurd zero positive.ne', rfl⟩

theorem power?_of_neg (negative : b < 0) :
    R.power? b c = some v ↔ ∃ s, R.sign? c = some s ∧ s * |b| ^ c = v := by
  rw [power?, if_pos negative, Option.map_eq_some_iff]

theorem power?_zero_base : R.power? 0 c = some v ↔ 0 ≤ c ∧ 0 ^ c = v := by
  rw [power?, if_neg (lt_irrefl 0), valueIf_eq_some]
  simp

theorem power?_of_nonneg (nonneg : 0 ≤ b) (h : R.power? b c = some v) : b ^ c = v := by
  rcases nonneg.eq_or_lt with rfl | positive
  · exact (power?_zero_base.mp h).2
  · rwa [power?_of_pos positive, Option.some.injEq] at h

theorem sign?_natCast (n : ℕ) : R.sign? n = some ((-1) ^ n) := by
  induction n with
  | zero => simpa using R.sign?_zero
  | succ n ih =>
    rw [Nat.cast_succ, R.sign?_add_one, ih, Option.map_some, pow_succ, mul_neg_one]

@[simp] theorem power?_natCast (b : ℝ) (n : ℕ) : R.power? b n = some (b ^ n) := by
  rcases lt_trichotomy b 0 with negative | rfl | positive
  · refine (power?_of_neg negative).mpr ⟨_, sign?_natCast n, ?_⟩
    rw [Real.rpow_natCast, ← mul_pow, abs_of_neg negative, neg_mul_neg, one_mul]
  · exact power?_zero_base.mpr ⟨Nat.cast_nonneg n, Real.rpow_natCast 0 n⟩
  · rw [power?_of_pos positive, Real.rpow_natCast]

/-- A power below the bar has the opposite exponent above it. -/
theorem power?_neg (h : R.power? b c = some v) (nonzero : v ≠ 0) :
    R.power? b (-c) = some v⁻¹ := by
  rcases lt_trichotomy b 0 with negative | rfl | positive
  · obtain ⟨s, sign, rfl⟩ := (power?_of_neg negative).mp h
    refine (power?_of_neg negative).mpr ⟨s⁻¹, R.sign?_neg sign, ?_⟩
    rw [Real.rpow_neg (abs_nonneg b), mul_inv]
  · obtain ⟨nonneg, rfl⟩ := power?_zero_base.mp h
    obtain rfl : c = 0 := by
      by_contra other
      exact nonzero (Real.zero_rpow other)
    simpa using power?_zero_base.mpr ⟨le_rfl, rfl⟩
  · rw [power?_of_pos positive, Option.some.injEq] at h ⊢
    rw [← h, Real.rpow_neg positive.le]

/-- The rule for powers of the symbol, also for those of negative numbers, and at zero as far as the
power can be derived there. -/
theorem hasDerivAt_power {g : ℝ → ℝ} (hg : ∀ᶠ s in 𝓝 t, R.power? s (c + 1) = some (g s))
    (hf : R.power? t c = some w) (differentiable : DifferentiableAt ℝ g t) :
    HasDerivAt g ((c + 1) * w) t := by
  rcases lt_trichotomy t 0 with negative | rfl | positive
  · obtain ⟨s, sign, rfl⟩ := (power?_of_neg negative).mp hf
    have next : R.sign? (c + 1) = some (-s) := by rw [R.sign?_add_one, sign, Option.map_some]
    have formula : g =ᶠ[𝓝 t] fun u => -s * (-u) ^ (c + 1) := by
      filter_upwards [hg, Iio_mem_nhds negative] with u value below
      obtain ⟨s', sign', power⟩ := (power?_of_neg below).mp value
      obtain rfl : -s = s' := Option.some.inj (next.symm.trans sign')
      rw [← power, abs_of_neg below]
    have slope := ((hasDerivAt_neg t).rpow_const (p := c + 1)
      (.inl (neg_ne_zero.mpr negative.ne))).const_mul (-s)
    refine (slope.congr_of_eventuallyEq formula).congr_deriv ?_
    rw [add_sub_cancel_right, abs_of_neg negative]
    ring
  · -- At zero the slope is that to the right, where the power is a real one.
    obtain ⟨nonneg, rfl⟩ := power?_zero_base.mp hf
    have near : g =ᶠ[𝓝[≥] 0] fun u => u ^ (c + 1) := by
      filter_upwards [nhdsWithin_le_nhds hg, self_mem_nhdsWithin] with u value above
      exact (power?_of_nonneg above value).symm
    have slope := Real.hasDerivAt_rpow_const (x := 0) (p := c + 1) (.inr (by linarith))
    have right := slope.hasDerivWithinAt.congr_of_eventuallyEq near
      (power?_of_nonneg le_rfl hg.self_of_nhds).symm
    have same := (uniqueDiffWithinAt_Ici 0).eq_deriv _
      differentiable.hasDerivAt.hasDerivWithinAt right
    rw [add_sub_cancel_right] at same
    exact differentiable.hasDerivAt.congr_deriv same
  · have formula : g =ᶠ[𝓝 t] fun u => u ^ (c + 1) := by
      filter_upwards [hg, Ioi_mem_nhds positive] with u value above
      exact (power?_of_nonneg (le_of_lt above) value).symm
    rw [power?_of_pos positive, Option.some.injEq] at hf
    have slope := Real.hasDerivAt_rpow_const (p := c + 1) (.inl positive.ne')
    refine (slope.congr_of_eventuallyEq formula).congr_deriv ?_
    rw [add_sub_cancel_right, hf]

end Powers

/-! ## Integer exponents -/

/-- The sign of `(-1) ^ c` for integers, the least that is asked for. -/
noncomputable def integerSign? (c : ℝ) : Option ℝ := valueIf (∃ n : ℤ, n = c) ((-1) ^ ⌊c⌋)

theorem integerSign?_intCast (n : ℤ) : integerSign? n = some ((-1) ^ n) := by
  rw [integerSign?, valueIf_eq_some, Int.floor_intCast]
  exact ⟨⟨n, rfl⟩, rfl⟩

theorem integerSign?_eq_none {c : ℝ} (other : ¬∃ n : ℤ, n = c) : integerSign? c = none :=
  if_neg other

/-- Powers of negative numbers with integer exponents only, and no calls but those of known
functions. Identifiers other than Euler's number are zero. -/
noncomputable def basic : RealReading where
  ident name := if name = "e" then Real.exp 1 else 0
  euler := if_pos rfl
  others _ _ := none
  integral? _ _ := none
  sign? := integerSign?
  sign?_zero := by simpa using integerSign?_intCast 0
  sign?_add_one c := by
    by_cases integer : ∃ n : ℤ, n = c
    · obtain ⟨n, rfl⟩ := integer
      rw [← Int.cast_one, ← Int.cast_add, integerSign?_intCast, integerSign?_intCast]
      simp [zpow_add_one₀]
    · have other : ¬∃ n : ℤ, n = c + 1 := fun ⟨n, same⟩ => integer ⟨n - 1, by simp [same]⟩
      rw [integerSign?_eq_none integer, integerSign?_eq_none other, Option.map_none]
  sign?_neg {c s} sign := by
    by_cases integer : ∃ n : ℤ, n = c
    · obtain ⟨n, rfl⟩ := integer
      rw [integerSign?_intCast, Option.some.injEq] at sign
      rw [← Int.cast_neg, integerSign?_intCast, zpow_neg, sign]
    · rw [integerSign?_eq_none integer] at sign
      cases sign

/-! ## Antiderivatives -/

namespace IsAntiderivative

variable {F e : Expr}

/-- It is enough to know a formula for the values of `F` and its slope wherever both have values. -/
theorem of_formula (g : ℝ → ℝ)
    (h : ∀ t v w, R.curve x F t = some v → R.curve x e t = some w → g t = v ∧
      ((∀ᶠ s in 𝓝 t, (∃ v, R.curve x F s = some v) ∧ ∃ w, R.curve x e s = some w) →
        DifferentiableAt ℝ g t → HasDerivAt g w t)) :
    R.IsAntiderivative x F e := by
  intro a b g' f hg hf differentiable t inside
  have near : ∀ᶠ s in 𝓝 t, s ∈ Set.Ioo a b := Ioo_mem_nhds inside.1 inside.2
  have same : g' =ᶠ[𝓝 t] g := near.mono fun s within =>
    (h s _ _ (hg s within) (hf s within)).1.symm
  have valued := near.mono fun s within =>
    (⟨⟨_, hg s within⟩, _, hf s within⟩ :
      (∃ v, R.curve x F s = some v) ∧ ∃ w, R.curve x e s = some w)
  have slope := (h t _ _ (hg t inside) (hf t inside)).2 valued
    (same.differentiableAt_iff.mp (differentiable t inside))
  exact slope.congr_of_eventuallyEq same

/-- Where both have values everywhere, the slope is the integrand everywhere. -/
theorem hasDerivAt (h : R.IsAntiderivative x F e) {g f : ℝ → ℝ}
    (hg : ∀ t, R.curve x F t = some (g t)) (hf : ∀ t, R.curve x e t = some (f t))
    (differentiable : Differentiable ℝ g) (t : ℝ) : HasDerivAt g (f t) t :=
  h (t - 1) (t + 1) g f (fun s _ => hg s) (fun s _ => hf s) (fun s _ => differentiable s) t
    ⟨by linarith, by linarith⟩

/-- The integrand may be replaced by one that has its values. -/
theorem of_value {d : Expr} (h : R.IsAntiderivative x F d)
    (same : ∀ t w, R.curve x e t = some w → R.curve x d t = some w) : R.IsAntiderivative x F e :=
  fun a b g f hg hf => h a b g f hg fun t inside => same t _ (hf t inside)

theorem of_none (h : ∀ t, R.curve x e t = none) : R.IsAntiderivative x F e :=
  of_formula 0 fun t v w _ hw => by cases (h t).symm.trans hw

/-- A multiple of an antiderivative, and a function whose slope is known. -/
theorem add_mul (h : R.IsAntiderivative x F e) (c : ℝ) (B : ℝ → ℝ) {G d : Expr}
    (values : ∀ t v w, R.curve x G t = some v → R.curve x d t = some w →
      ∃ p q, R.curve x F t = some p ∧ R.curve x e t = some q ∧ B t + c * p = v ∧
        HasDerivAt B (w - c * q) t) :
    R.IsAntiderivative x G d := by
  intro a b g f hg hf differentiable t inside
  have near : ∀ᶠ s in 𝓝 t, s ∈ Set.Ioo a b := Ioo_mem_nhds inside.1 inside.2
  choose! p q hp hq value slope using fun s (within : s ∈ Set.Ioo a b) =>
    values s _ _ (hg s within) (hf s within)
  have same : g =ᶠ[𝓝 t] fun s => B s + c * p s := near.mono fun s within => (value s within).symm
  refine HasDerivAt.congr_of_eventuallyEq ?_ same
  rcases eq_or_ne c 0 with rfl | nonzero
  · simpa using slope t inside
  · have inner {s : ℝ} (within : s ∈ Set.Ioo a b) : DifferentiableAt ℝ p s := by
      have difference :=
        ((differentiable s within).sub (slope s within).differentiableAt).div_const c
      refine difference.congr_of_eventuallyEq ?_
      filter_upwards [Ioo_mem_nhds within.1 within.2] with r near
      rw [Pi.sub_apply, ← value r near, add_sub_cancel_left, mul_div_cancel_left₀ _ nonzero]
    have lower := h a b p q hp hq (fun s within => inner within) t inside
    exact ((slope t inside).add (lower.const_mul c)).congr_deriv (sub_add_cancel _ _)

end IsAntiderivative

end RealReading

end SymbolicAlgebra
