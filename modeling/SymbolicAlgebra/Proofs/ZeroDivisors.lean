import SymbolicAlgebra.Proofs.FactoredSides
import SymbolicAlgebra.Rule.Trim

/-! Quotients of a number other than zero by an expression with the value zero. Cancelling multiplies
both sides by one number other than zero, so that the divisor stays zero, as long as every base that
stands on both sides has rational exponents there. -/
namespace SymbolicAlgebra

/-- Every base on both sides has a rational exponent wherever it stands. -/
def SharedRationally (top bottom : List Power) : Prop :=
  ∀ p ∈ top, ∀ q ∈ bottom, p.1 = q.1 → p.2.rational?.isSome = true ∧ q.2.rational?.isSome = true

instance (top bottom : List Power) : Decidable (SharedRationally top bottom) :=
  inferInstanceAs (Decidable (∀ p ∈ top, ∀ q ∈ bottom, _ → _))

/-- What is netted on the sides of a quotient has rational exponents. -/
def NetsRationally (n d : Expr) : Prop :=
  SharedRationally (FactoredTerm.ofExpr (Quotient.flatten n d).num).powers
    (FactoredTerm.ofExpr (Quotient.flatten n d).den).powers

instance (n d : Expr) : Decidable (NetsRationally n d) :=
  inferInstanceAs (Decidable (SharedRationally _ _))

/-- Where a base stands on both sides of a quotient, its exponents are rational. -/
def QuotientNetsRationally (e : Expr) : Prop := ∀ s ∈ e.sides? .divide, NetsRationally s.1 s.2

instance : DecidablePred QuotientNetsRationally := fun e =>
  inferInstanceAs (Decidable (∀ s ∈ e.sides? .divide, _))

/-- Where the factored quotient is kept, exponents of a base on both of its sides are rational. -/
def FactoredNetsRationally (simplify : Expr → Expr) (e : Expr) : Prop :=
  ∀ s ∈ e.sides? .divide, (reduceFactoredNode simplify e).changed = true →
    NetsRationally (withFactoredSums simplify s.1) (withFactoredSums simplify s.2)

instance (simplify : Expr → Expr) : DecidablePred (FactoredNetsRationally simplify) := fun e =>
  inferInstanceAs (Decidable (∀ s ∈ e.sides? .divide, _ → _))

theorem isSome_rational?_ofRat (r : Rat) : (Expr.ofRat r).rational?.isSome = true := by
  unfold Expr.ofRat
  split
  · rfl
  · have den : (r.den : Rat) ≠ 0 := Nat.cast_ne_zero.mpr r.den_nz
    simp [Expr.div, Expr.rational?, Expr.ofInt, Numeral.ofInt, den]

/-- The exponent that is left below the bar is rational again. -/
theorem sharedRationally_netPower {top before after : List Power} {base upper lower : Expr}
    (h : SharedRationally top (before ++ (base, lower) :: after))
    (shared : upper.rational?.isSome = true ∧ lower.rational?.isSome = true) :
    SharedRationally top (netPower base upper lower before after).2 := by
  obtain ⟨r, above⟩ := Option.isSome_iff_exists.mp shared.1
  obtain ⟨s, below⟩ := Option.isSome_iff_exists.mp shared.2
  have rest : SharedRationally top (before ++ after) := fun p member q inside =>
    h p member q (by
      rcases List.mem_append.mp inside with left | right
      · exact List.mem_append_left _ left
      · exact List.mem_append_right _ (List.mem_cons_of_mem _ right))
  unfold netPower
  simp only [above, below]
  split
  · intro p member q inside same
    rcases List.mem_append.mp inside with left | right
    · exact rest p member q (List.mem_append_left _ left) same
    · rcases List.mem_cons.mp right with rfl | later
      · exact ⟨(h p member (base, lower) (by simp) same).1, isSome_rational?_ofRat _⟩
      · exact rest p member q (List.mem_append_right _ later) same
  · split <;> exact rest

namespace Reading

variable {K : Type*} [Field K]

/-- A number other than zero over an expression with the value zero. -/
structure ZeroDivided (R : Reading K) (n d : Expr) : Prop where
  dividend : R.Defined n
  divisor : R.Defined d
  nonzero : R.val n ≠ 0
  zero : R.val d = 0

variable {R : Reading K}

theorem ZeroDivided.of_keeps {n d upper lower : Expr} (h : R.ZeroDivided n d)
    (above : R.Keeps n upper) (below : R.Keeps d lower) : R.ZeroDivided upper lower where
  dividend := (above h.dividend).1
  divisor := (below h.divisor).1
  nonzero := by rw [(above h.dividend).2]; exact h.nonzero
  zero := by rw [(below h.divisor).2]; exact h.zero

/-- An inner divisor is not zero, so that nothing is lost on its way to the other side. -/
theorem ZeroDivided.flatten {n d : Expr} (h : R.ZeroDivided n d) :
    R.ZeroDivided (Quotient.flatten n d).num (Quotient.flatten n d).den := by
  fun_induction Quotient.flatten n d with
  | case1 a b d ih =>
    obtain ⟨ha, hb, inner⟩ := (defined_node_divide a b).mp h.dividend
    have nonzero : R.val a / R.val b ≠ 0 := h.nonzero
    refine ih ⟨ha, defined_times hb h.divisor, ?_, ?_⟩
    · exact fun zero => nonzero (by rw [zero, zero_div])
    · rw [val_times hb h.divisor, h.zero, mul_zero]
  | case2 n b c other ih =>
    obtain ⟨hb, hc, inner⟩ := (defined_node_divide b c).mp h.divisor
    have zero : R.val b / R.val c = 0 := h.zero
    refine ih ⟨defined_times h.dividend hc, hb, ?_, ?_⟩
    · rw [val_times h.dividend hc]
      exact mul_ne_zero h.nonzero inner
    · exact (div_eq_zero_iff.mp zero).resolve_right inner
  | case3 => exact h

/-! ## Netting exponents -/

variable [CharZero K]

/-- An exponent that is left below the bar. -/
theorem leftBelow_spec {base : Expr} {m n : ℤ} {before after : List Power} (hb : R.Defined base)
    (hbefore : R.PowersDefined before) (hafter : R.PowersDefined after)
    (nonzero : R.val base ^ m ≠ 0) (natural : R.val base = 0 → 0 ≤ n - m) :
    R.PowersDefined (before ++ (base, .ofRat (-((m - n : ℤ) : Rat))) :: after) ∧
      R.powersVal (before ++ (base, .ofRat (-((m - n : ℤ) : Rat))) :: after) =
        R.powersVal before * (R.val base ^ n * R.powersVal after) * (R.val base ^ m)⁻¹ := by
  have cast : ((-((m - n : ℤ) : Rat) : Rat) : K) = ((n - m : ℤ) : K) := by push_cast; ring
  have kept : R.Defined (.pow base (.ofRat (-((m - n : ℤ) : Rat)))) :=
    (defined_pow _ _).mpr
      ⟨hb, defined_ofRat _, n - m, cast.symm.trans (val_ofRat _).symm, natural⟩
  constructor
  · exact (powersDefined_append _ _).mpr ⟨hbefore, (powersDefined_cons _ _).mpr ⟨kept, hafter⟩⟩
  · simp only [powersVal_append, powersVal_cons, val_pow, val_ofRat, cast, power_intCast]
    rw [zpow_sub_of_ne nonzero]
    ring

/-- An exponent that is left above the bar. -/
theorem leftAbove_spec {base : Expr} (m n : ℤ) (hb : R.Defined base) (nonzero : R.val base ≠ 0) :
    R.PowersDefined [(base, .ofRat ((m - n : ℤ) : Rat))] ∧
      R.powersVal [(base, .ofRat ((m - n : ℤ) : Rat))] =
        R.val base ^ m * (R.val base ^ n)⁻¹ := by
  have kept : R.Defined (.pow base (.ofRat ((m - n : ℤ) : Rat))) :=
    (defined_pow _ _).mpr ⟨hb, defined_ofRat _, m - n, by simp, fun zero => absurd zero nonzero⟩
  refine ⟨(powersDefined_cons _ _).mpr ⟨kept, powersDefined_nil⟩, ?_⟩
  simp only [powersVal_cons, powersVal_nil, val_pow, val_ofRat, Rat.cast_intCast, power_intCast,
    mul_one]
  rw [zpow_sub_of_ne (zpow_ne_zero n nonzero), div_eq_mul_inv]

/-- The exponents of a shared base lose the smaller of the two: both sides are divided by that power
of the base, which is not zero if the power above the bar is not. -/
theorem netPower_scales {base upper lower : Expr} {before after : List Power}
    (top : R.Defined (.pow base upper))
    (bottom : R.PowersDefined (before ++ (base, lower) :: after))
    (nonzero : R.val (.pow base upper) ≠ 0) (above : upper.rational?.isSome = true)
    (below : lower.rational?.isSome = true) :
    R.PowersDefined (netPower base upper lower before after).1 ∧
      R.PowersDefined (netPower base upper lower before after).2 ∧
      ∃ c : K, c ≠ 0 ∧
        R.powersVal (netPower base upper lower before after).1 = R.val (.pow base upper) * c ∧
        R.powersVal (netPower base upper lower before after).2 =
          R.powersVal (before ++ (base, lower) :: after) * c := by
  obtain ⟨r, rational⟩ := Option.isSome_iff_exists.mp above
  obtain ⟨s, divisorRational⟩ := Option.isSome_iff_exists.mp below
  obtain ⟨hb, -, m, exponent, -⟩ := (defined_pow _ _).mp top
  rw [powersDefined_append, powersDefined_cons] at bottom
  obtain ⟨hbefore, here, hafter⟩ := bottom
  obtain ⟨-, -, n, divisor, lowerBound⟩ := (defined_pow base lower).mp here
  have rest : R.PowersDefined (before ++ after) := (powersDefined_append _ _).mpr ⟨hbefore, hafter⟩
  have hr : (m : Rat) = r := by exact_mod_cast exponent.trans (rational?_spec rational).2
  have hs : (n : Rat) = s := by exact_mod_cast divisor.trans (rational?_spec divisorRational).2
  rw [val_pow, ← exponent, power_intCast] at nonzero
  have difference : (m : Rat) - n = ((m - n : ℤ) : Rat) := by push_cast; rfl
  -- A base with the value zero has no exponent above the bar, and none that is negative below it.
  have natural : R.val base = 0 → 0 ≤ n - m := by
    intro zero
    have vanishing : m = 0 := by
      by_contra other
      exact nonzero (by rw [zero, zero_zpow m other])
    have := lowerBound zero
    omega
  unfold netPower
  simp only [rational, divisorRational, ← hr, ← hs, difference, Rat.num_intCast, powersVal_append,
    powersVal_cons, val_pow, ← exponent, ← divisor, power_intCast]
  split
  · obtain ⟨kept, value⟩ := leftBelow_spec hb hbefore hafter nonzero natural
    refine ⟨powersDefined_nil, kept, (R.val base ^ m)⁻¹, inv_ne_zero nonzero, ?_, value⟩
    rw [powersVal_nil, mul_inv_cancel₀ nonzero]
  · rename_i notNegative
    split
    · rename_i same
      have same : m = n := by
        have : m - n = 0 := by exact_mod_cast same
        omega
      refine ⟨powersDefined_nil, rest, (R.val base ^ m)⁻¹, inv_ne_zero nonzero, ?_, ?_⟩
      · rw [powersVal_nil, mul_inv_cancel₀ nonzero]
      · rw [powersVal_append, ← same]
        field_simp
    · rename_i notZero
      have baseNonzero : R.val base ≠ 0 := by
        intro zero
        have := natural zero
        have : (m - n : ℤ) ≠ 0 := by exact_mod_cast notZero
        omega
      have divisorNonzero := zpow_ne_zero n baseNonzero
      obtain ⟨kept, value⟩ := leftAbove_spec m n hb baseNonzero
      refine ⟨kept, rest, (R.val base ^ n)⁻¹, inv_ne_zero divisorNonzero, value, ?_⟩
      rw [powersVal_append]
      field_simp

/-- Netting divides both sides by one number other than zero. -/
theorem netPowers_scales {top bottom : List Power} (ht : R.PowersDefined top)
    (hb : R.PowersDefined bottom) (nonzero : R.powersVal top ≠ 0)
    (rational : SharedRationally top bottom) :
    R.PowersDefined (netPowers top bottom).top ∧ R.PowersDefined (netPowers top bottom).bottom ∧
      ∃ c : K, c ≠ 0 ∧ R.powersVal (netPowers top bottom).top = R.powersVal top * c ∧
        R.powersVal (netPowers top bottom).bottom = R.powersVal bottom * c := by
  induction top generalizing bottom with
  | nil => exact ⟨powersDefined_nil, hb, 1, one_ne_zero, by simp [netPowers], by simp [netPowers]⟩
  | cons p top ih =>
    obtain ⟨base, upper⟩ := p
    obtain ⟨first, rest⟩ := (powersDefined_cons _ _).mp ht
    rw [powersVal_cons] at nonzero
    obtain ⟨here, others⟩ := mul_ne_zero_iff.mp nonzero
    obtain ⟨own, later⟩ := List.forall_mem_cons.mp rational
    unfold netPowers
    split
    · obtain ⟨above, below, c, scale, upperValue, lowerValue⟩ := ih rest hb others later
      refine ⟨(powersDefined_cons _ _).mpr ⟨first, above⟩, below, c, scale, ?_, lowerValue⟩
      rw [powersVal_cons, powersVal_cons, upperValue, mul_assoc]
    · rename_i before lower after found
      have split := eq_append_of_splitAtBase found
      subst split
      have shared := own (base, lower) (by simp) rfl
      obtain ⟨kept, left, b, baseScale, keptValue, leftValue⟩ :=
        netPower_scales first hb here shared.1 shared.2
      obtain ⟨above, below, c, scale, upperValue, lowerValue⟩ :=
        ih rest left others (sharedRationally_netPower later shared)
      refine ⟨(powersDefined_append _ _).mpr ⟨kept, above⟩, below, b * c,
        mul_ne_zero baseScale scale, ?_, ?_⟩
      · rw [powersVal_append, keptValue, upperValue, powersVal_cons]
        ring
      · rw [lowerValue, leftValue]
        ring

/-! ## Quotients -/

theorem ofTerms_zeroDivided {q : Quotient} {top bottom : FactoredTerm}
    (h : R.ZeroDivided q.num q.den) (ht : R.TermDefined top) (hb : R.TermDefined bottom)
    (above : R.termVal top = R.val q.num) (below : R.termVal bottom = R.val q.den)
    (rational : SharedRationally top.powers bottom.powers) :
    ∃ n d, (Cancellation.ofTerms q top bottom).expr = .div n d ∧ R.ZeroDivided n d := by
  obtain ⟨r, hr⟩ := Numeral.exists_exact ht.1
  obtain ⟨s, hs⟩ := Numeral.exists_exact hb.1
  have nonzero := h.nonzero
  have zero := h.zero
  rw [← above, termVal, hr, Numeral.val_exact] at nonzero
  rw [← below, termVal, hs, Numeral.val_exact] at zero
  obtain ⟨coefficient, powersNonzero⟩ := mul_ne_zero_iff.mp nonzero
  obtain ⟨netTop, netBottom, c, scale, topValue, bottomValue⟩ :=
    netPowers_scales ht.2 hb.2 powersNonzero rational
  unfold Cancellation.ofTerms
  simp only [hr, hs, netCoefficients]
  split
  · exact ⟨q.num, q.den, rfl, h⟩
  rename_i other
  split
  · exact ⟨q.num, q.den, rfl, h⟩
  have divisor : s ≠ 0 := by simpa using other
  have powersZero : R.powersVal bottom.powers = 0 :=
    (mul_eq_zero.mp zero).resolve_left (Rat.cast_ne_zero.mpr divisor)
  have remains : R.powersVal (netPowers top.powers bottom.powers).bottom = 0 := by
    rw [bottomValue, powersZero, zero_mul]
  obtain ⟨upper, upperValue⟩ := toExpr_spec (R := R)
    (t := ⟨.ofInt (r / s).num, (netPowers top.powers bottom.powers).top⟩) ⟨rfl, netTop⟩
  obtain ⟨lower, lowerValue⟩ := toExpr_spec (R := R)
    (t := ⟨.ofInt (r / s).den, (netPowers top.powers bottom.powers).bottom⟩) ⟨rfl, netBottom⟩
  split
  · rename_i gone
    rw [Bool.and_eq_true, List.isEmpty_iff] at gone
    rw [gone.1, powersVal_nil] at remains
    exact absurd remains one_ne_zero
  · refine ⟨_, _, rfl, upper, lower, ?_, ?_⟩
    · have ratio : (((r / s).num : ℤ) : K) ≠ 0 := by
        rw [Int.cast_ne_zero, Rat.num_ne_zero]
        exact div_ne_zero (Rat.cast_ne_zero.mp coefficient) divisor
      rw [upperValue, termVal, Numeral.val_ofInt, topValue]
      exact mul_ne_zero ratio (mul_ne_zero powersNonzero scale)
    · rw [lowerValue, termVal, remains, mul_zero]

omit [CharZero K] in
/-- Without an imaginary unit no complex numeral has a value. -/
theorem isComplex_of_defined (real : R.unit? = none) {e : Expr} (h : R.Defined e) :
    e.isComplex = false := by
  by_contra complex
  have unit := unit_of_isComplex h (by simpa using complex)
  rw [real] at unit
  cases unit

omit [CharZero K] in
theorem constantQuotient?_of_defined (real : R.unit? = none) {a b : Expr} (ha : R.Defined a)
    (hb : R.Defined b) : Expr.constantQuotient? a b = none := by
  rw [Expr.constantQuotient?, isComplex_of_defined real ha, isComplex_of_defined real hb]
  rfl

/-- A cancelled quotient by zero is one again, or the undefined quotient. -/
theorem ofFlat_zeroDivided (real : R.unit? = none) {n d : Expr} (h : R.ZeroDivided n d)
    (rational : NetsRationally n d) :
    (∃ a b, (Cancellation.ofFlat (Quotient.flatten n d)).expr = .div a b ∧ R.ZeroDivided a b) ∨
      (Cancellation.ofFlat (Quotient.flatten n d)).expr = undefinedQuotient := by
  have flat := h.flatten
  unfold Cancellation.ofFlat
  split
  · exact .inr rfl
  rename_i divisor
  split
  · exact .inl ⟨_, _, rfl, flat⟩
  rw [constantQuotient?_of_defined real flat.dividend flat.divisor]
  dsimp only
  split
  · rename_i x y above below
    have defined := flat.divisor
    have zero := flat.zero
    rw [below] at divisor defined zero
    obtain ⟨s, rfl⟩ := Numeral.exists_exact defined
    have : s = 0 := by simpa using zero
    exact absurd (by simp [Expr.isZero, this]) divisor
  · obtain ⟨top, above⟩ := ofExpr_spec flat.dividend
    obtain ⟨bottom, below⟩ := ofExpr_spec flat.divisor
    exact .inl (ofTerms_zeroDivided flat top bottom above below rational)

end Reading

end SymbolicAlgebra
