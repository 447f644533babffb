import SymbolicAlgebra.Proofs.Constants
import SymbolicAlgebra.Quotient.LowestTerms

/-! Cancelling common factors keeps values wherever the divisor is not zero. -/
namespace SymbolicAlgebra

theorem eq_append_of_splitAtBase {base exponent : Expr} {ps before after : List Power}
    (h : splitAtBase base ps = some (before, exponent, after)) :
    ps = before ++ (base, exponent) :: after := by
  induction ps generalizing before with
  | nil => cases h
  | cons p ps ih =>
    unfold splitAtBase at h
    split at h
    · rename_i same
      cases h
      rw [← same, List.nil_append]
    · obtain ⟨⟨first, e, last⟩, found, same⟩ := Option.map_eq_some_iff.mp h
      cases same
      rw [ih found, List.cons_append]

theorem eq_append_of_splitAtQuotient {xs before after : List Expr} {q : Quotient}
    (h : splitAtQuotient xs = some (before, q, after)) : xs = before ++ q.toExpr :: after := by
  fun_induction splitAtQuotient xs generalizing before with
  | case1 => cases h
  | case2 n d tail =>
    cases h
    rfl
  | case3 x tail other ih =>
    obtain ⟨⟨first, found, last⟩, inside, same⟩ := Option.map_eq_some_iff.mp h
    cases same
    rw [ih inside, List.cons_append]

namespace Reading

variable {K : Type*} [Field K] {R : Reading K}

/-! ## Products as a coefficient and powers -/

def PowersDefined (R : Reading K) (ps : List Power) : Prop := ∀ p ∈ ps, R.Defined (.pow p.1 p.2)

noncomputable def powersVal (R : Reading K) (ps : List Power) : K :=
  (ps.map fun p => R.val (.pow p.1 p.2)).prod

def TermDefined (R : Reading K) (t : FactoredTerm) : Prop :=
  t.coefficient.isExact ∧ R.PowersDefined t.powers

noncomputable def termVal (R : Reading K) (t : FactoredTerm) : K :=
  t.coefficient.val K * R.powersVal t.powers

@[simp] theorem powersVal_nil : R.powersVal [] = 1 := rfl

@[simp] theorem powersVal_cons (p : Power) (ps : List Power) :
    R.powersVal (p :: ps) = R.val (.pow p.1 p.2) * R.powersVal ps := by simp [powersVal]

@[simp] theorem powersVal_append (ps qs : List Power) :
    R.powersVal (ps ++ qs) = R.powersVal ps * R.powersVal qs := by simp [powersVal]

@[simp] theorem powersDefined_nil : R.PowersDefined [] := fun _ member => nomatch member

@[simp] theorem powersDefined_cons (p : Power) (ps : List Power) :
    R.PowersDefined (p :: ps) ↔ R.Defined (.pow p.1 p.2) ∧ R.PowersDefined ps :=
  List.forall_mem_cons

@[simp] theorem powersDefined_append (ps qs : List Power) :
    R.PowersDefined (ps ++ qs) ↔ R.PowersDefined ps ∧ R.PowersDefined qs :=
  List.forall_mem_append

section Terms

variable [CharZero K]

theorem asPower_keeps (e : Expr) : R.Keeps e (.pow e.asPower.1 e.asPower.2) := by
  unfold Expr.asPower
  split
  · exact Keeps.refl _
  · intro h
    exact ⟨(defined_pow _ _).mpr ⟨h, defined_one, 1, by simp, fun _ => zero_le_one⟩, by simp⟩

theorem powerExpr_keeps (p : Power) : R.Keeps (.pow p.1 p.2) (FactoredTerm.powerExpr p) := by
  intro h
  unfold FactoredTerm.powerExpr
  split
  · rename_i one
    obtain ⟨base, exponent, -⟩ := (defined_pow _ _).mp h
    exact ⟨base, by rw [val_pow, val_of_isOne exponent one, power_one]⟩
  · exact ⟨h, rfl⟩

/-- The numerals among the factors multiply to an exact numeral. -/
theorem numeralProduct_spec {xs : List Expr} (h : ∀ x ∈ xs, R.Defined x) :
    ∃ r, Expr.numeralProduct xs = .exact r ∧
      ((xs.filter Expr.isNumber).map R.val).prod = r := by
  have fold (acc : Rat) (ys : List Expr) (hy : ∀ y ∈ ys, R.Defined y) :
      ∃ r, (ys.filterMap Expr.number?).foldl Numeral.mul (.exact acc) = .exact r ∧
        acc * ((ys.filter Expr.isNumber).map R.val).prod = r := by
    induction ys generalizing acc with
    | nil => exact ⟨acc, rfl, by simp⟩
    | cons y ys ih =>
      obtain ⟨first, rest⟩ := List.forall_mem_cons.mp hy
      cases y with
      | number x =>
        obtain ⟨s, rfl⟩ := Numeral.exists_exact first
        obtain ⟨r, folded, value⟩ := ih (acc * s) rest
        refine ⟨r, by simpa [List.filterMap_cons, Expr.number?] using folded, ?_⟩
        simp only [← value, List.filter_cons, Expr.isNumber, ↓reduceIte, List.map_cons,
          List.prod_cons, val_exact, Rat.cast_mul, mul_assoc]
      | complex _ | ident _ | call _ _ | node _ _ =>
        simpa [List.filterMap_cons, List.filter_cons, Expr.number?, Expr.isNumber] using ih acc rest
  simpa [Expr.numeralProduct, Numeral.one, Numeral.ofInt] using fold 1 xs h

theorem powersOfFactors_spec {xs : List Expr} (h : ∀ x ∈ xs, R.Defined x) :
    R.PowersDefined (xs.map Expr.asPower) ∧
      R.powersVal (xs.map Expr.asPower) = (xs.map R.val).prod := by
  induction xs with
  | nil => simp
  | cons x xs ih =>
    obtain ⟨first, rest⟩ := List.forall_mem_cons.mp h
    obtain ⟨defined, value⟩ := ih rest
    obtain ⟨here, same⟩ := asPower_keeps x first
    exact ⟨(powersDefined_cons _ _).mpr ⟨here, defined⟩, by simp [value, ← same]⟩

theorem ofExpr_spec {e : Expr} (h : R.Defined e) :
    R.TermDefined (.ofExpr e) ∧ R.termVal (.ofExpr e) = R.val e := by
  have factors := (defined_factors e).mpr h
  obtain ⟨r, coefficient, numerals⟩ := numeralProduct_spec factors
  obtain ⟨defined, value⟩ := powersOfFactors_spec
    (defined_filter (p := fun x => !x.isNumber) factors)
  refine ⟨⟨by simp [FactoredTerm.ofExpr, coefficient], defined⟩, ?_⟩
  rw [termVal, FactoredTerm.ofExpr, value, coefficient, Numeral.val_exact, ← numerals,
    prod_filter_mul_prod_filter_not, prod_factors]

theorem powerExprs_spec {ps : List Power} (h : R.PowersDefined ps) :
    (∀ x ∈ ps.map FactoredTerm.powerExpr, R.Defined x) ∧
      ((ps.map FactoredTerm.powerExpr).map R.val).prod = R.powersVal ps := by
  induction ps with
  | nil => simp
  | cons p ps ih =>
    obtain ⟨first, rest⟩ := (powersDefined_cons p ps).mp h
    obtain ⟨defined, value⟩ := ih rest
    obtain ⟨here, same⟩ := powerExpr_keeps p first
    exact ⟨List.forall_mem_cons.mpr ⟨here, defined⟩, by
      rw [List.map_cons, List.map_cons, List.prod_cons, value, same, powersVal_cons]⟩

theorem toExpr_spec {t : FactoredTerm} (h : R.TermDefined t) :
    R.Defined t.toExpr ∧ R.val t.toExpr = R.termVal t := by
  obtain ⟨coefficient, powers⟩ := t
  obtain ⟨r, rfl⟩ := Numeral.exists_exact h.1
  obtain ⟨defined, value⟩ := powerExprs_spec h.2
  rw [FactoredTerm.toExpr, defined_product, val_product, List.map_append, List.prod_append, value,
    termVal]
  constructor
  · intro x member
    rcases List.mem_append.mp member with left | right
    · split at left
      · cases left
      · rw [List.mem_singleton.mp left]
        rfl
    · exact defined x right
  · split
    · rename_i one
      have : r = 1 := by simpa using one
      simp [this]
    · simp

end Terms

/-! ## Netting exponents -/

/-- Where a negative power of zero is no divisor, exponents subtract. -/
theorem zpow_sub_of_ne {x : K} {m n : ℤ} (nonzero : x ^ n ≠ 0) :
    x ^ (m - n) = x ^ m / x ^ n := by
  by_cases zero : x = 0
  · have : n = 0 := by
      by_contra other
      exact nonzero (by rw [zero, zero_zpow n other])
    simp [this]
  · exact zpow_sub₀ zero m n

theorem exponent_nonneg_of_ne {x : K} {m n : ℤ} (upper : x = 0 → 0 ≤ m) (nonzero : x ^ n ≠ 0) :
    x = 0 → 0 ≤ m - n := by
  intro zero
  have : n = 0 := by
    by_contra other
    exact nonzero (by rw [zero, zero_zpow n other])
  simpa [this] using upper zero

theorem base_ne_zero_of_lt {x : K} {m n : ℤ} (upper : x = 0 → 0 ≤ m) (nonzero : x ^ n ≠ 0)
    (less : m < n) : x ≠ 0 := fun zero => by
  have := exponent_nonneg_of_ne upper nonzero zero
  omega

variable [CharZero K]

/-- A power above the bar against one of the same base below it. -/
theorem netPower_spec {base upper lower : Expr} {before after : List Power}
    (top : R.Defined (.pow base upper)) (bottom : R.PowersDefined (before ++ (base, lower) :: after))
    (nonzero : R.powersVal (before ++ (base, lower) :: after) ≠ 0) :
    R.PowersDefined (netPower base upper lower before after).1 ∧
      R.PowersDefined (netPower base upper lower before after).2 ∧
      R.powersVal (netPower base upper lower before after).2 ≠ 0 ∧
      R.powersVal (netPower base upper lower before after).1 *
          R.powersVal (before ++ (base, lower) :: after) =
        R.val (.pow base upper) * R.powersVal (netPower base upper lower before after).2 := by
  obtain ⟨hb, hu, m, exponent, upperBound⟩ := (defined_pow _ _).mp top
  rw [powersDefined_append, powersDefined_cons] at bottom
  obtain ⟨hbefore, below, hafter⟩ := bottom
  obtain ⟨-, hl, n, divisor, -⟩ := (defined_pow base lower).mp below
  simp only [powersVal_append, powersVal_cons, val_pow, ← divisor, power_intCast, ne_eq,
    mul_eq_zero, not_or] at nonzero ⊢
  obtain ⟨beforeNonzero, here, afterNonzero⟩ := nonzero
  have rest : R.PowersDefined (before ++ after) := (powersDefined_append _ _).mpr ⟨hbefore, hafter⟩
  have difference : R.val base ^ (m - n) = R.val base ^ m / R.val base ^ n := zpow_sub_of_ne here
  have nonneg := exponent_nonneg_of_ne upperBound here
  unfold netPower
  split
  · rename_i r s rational divisorRational
    have hr : (m : Rat) = r := by
      have := exponent.trans (rational?_spec rational).2
      exact_mod_cast this
    have hs : (n : Rat) = s := by
      have := divisor.trans (rational?_spec divisorRational).2
      exact_mod_cast this
    subst hr hs
    dsimp only
    have netCast : ((m : Rat) - n : Rat) = ((m - n : ℤ) : Rat) := by push_cast; rfl
    rw [netCast]
    split
    · rename_i negative
      have less : m < n := by
        simp only [Rat.num_intCast] at negative
        omega
      have baseNonzero := base_ne_zero_of_lt upperBound here less
      have cast : ((-((m - n : ℤ) : Rat) : Rat) : K) = ((n - m : ℤ) : K) := by push_cast; ring
      refine ⟨powersDefined_nil, ?_, ?_, ?_⟩
      · rw [powersDefined_append, powersDefined_cons]
        refine ⟨hbefore, (defined_pow base (.ofRat (-((m - n : ℤ) : Rat)))).mpr
          ⟨hb, defined_ofRat _, n - m, ?_, ?_⟩, hafter⟩
        · exact cast.symm.trans (val_ofRat _).symm
        · exact fun zero => absurd zero baseNonzero
      · simp only [powersVal_append, powersVal_cons, val_pow, val_ofRat, cast, power_intCast]
        exact mul_ne_zero beforeNonzero (mul_ne_zero (zpow_ne_zero _ baseNonzero) afterNonzero)
      · simp only [powersVal_nil, powersVal_append, powersVal_cons, val_pow, val_ofRat, cast,
          ← exponent, power_intCast, one_mul]
        rw [zpow_sub₀ baseNonzero]
        have := zpow_ne_zero m baseNonzero
        field_simp
    · split
      · rename_i zero
        have same : m = n := by
          have : m - n = 0 := by exact_mod_cast zero
          omega
        refine ⟨powersDefined_nil, rest, by simp [beforeNonzero, afterNonzero], ?_⟩
        simp only [powersVal_nil, powersVal_append, ← exponent, power_intCast, same]
        ring
      · refine ⟨?_, rest, by simp [beforeNonzero, afterNonzero], ?_⟩
        · refine (powersDefined_cons _ _).mpr ⟨(defined_pow base (.ofRat (m - n : ℤ))).mpr ?_,
            powersDefined_nil⟩
          exact ⟨hb, defined_ofRat _, m - n, by simp, nonneg⟩
        · simp only [powersVal_cons, powersVal_nil, powersVal_append, val_pow, val_ofRat,
            Rat.cast_intCast, power_intCast, difference, ← exponent]
          field_simp
  · have value : R.val (.sum [upper, lower.negate]) = ((m - n : ℤ) : K) := by
      simp [val_negate hl, ← exponent, ← divisor, sub_eq_add_neg]
    refine ⟨?_, rest, by simp [beforeNonzero, afterNonzero], ?_⟩
    · refine (powersDefined_cons _ _).mpr ⟨(defined_pow _ _).mpr ?_, powersDefined_nil⟩
      exact ⟨hb, by simpa using ⟨hu, defined_negate hl⟩, m - n, value.symm, nonneg⟩
    · simp only [powersVal_cons, powersVal_nil, powersVal_append, val_pow, value, power_intCast,
        difference, ← exponent]
      field_simp

/-- Every power above the bar is netted against what is left below it. -/
theorem netPowers_spec {top bottom : List Power} (ht : R.PowersDefined top)
    (hb : R.PowersDefined bottom) (nonzero : R.powersVal bottom ≠ 0) :
    R.PowersDefined (netPowers top bottom).top ∧ R.PowersDefined (netPowers top bottom).bottom ∧
      R.powersVal (netPowers top bottom).bottom ≠ 0 ∧
      R.powersVal (netPowers top bottom).top * R.powersVal bottom =
        R.powersVal top * R.powersVal (netPowers top bottom).bottom := by
  induction top generalizing bottom with
  | nil => exact ⟨powersDefined_nil, hb, nonzero, rfl⟩
  | cons p top ih =>
    obtain ⟨base, upper⟩ := p
    obtain ⟨first, rest⟩ := (powersDefined_cons _ _).mp ht
    unfold netPowers
    split
    · obtain ⟨above, below, remains, value⟩ := ih rest hb nonzero
      refine ⟨(powersDefined_cons _ _).mpr ⟨first, above⟩, below, remains, ?_⟩
      rw [powersVal_cons, powersVal_cons, mul_assoc, value, mul_assoc]
    · rename_i before lower after found
      have split := eq_append_of_splitAtBase found
      subst split
      obtain ⟨kept, left, leftNonzero, one⟩ := netPower_spec first hb nonzero
      obtain ⟨above, below, remains, value⟩ := ih rest left leftNonzero
      refine ⟨(powersDefined_append _ _).mpr ⟨kept, above⟩, below, remains, ?_⟩
      rw [powersVal_append, powersVal_cons]
      apply mul_right_cancel₀ leftNonzero
      linear_combination
        R.powersVal (netPowers top (netPower base upper lower before after).2).top *
            R.powersVal (netPower base upper lower before after).2 * one +
          R.val (.pow base upper) * R.powersVal (netPower base upper lower before after).2 * value

/-! ## Quotients -/

omit [CharZero K] in
/-- Inner divisors move to the other side. -/
theorem quotientFlatten_keeps (n d : Expr) :
    R.Keeps (.div n d) (Quotient.flatten n d).toExpr := by
  fun_induction Quotient.flatten n d with
  | case1 a b d ih =>
    refine Keeps.trans (fun h => ?_) ih
    obtain ⟨upper, hd, outer⟩ := (defined_div _ _).mp h
    obtain ⟨ha, hb, inner⟩ := (defined_node_divide a b).mp upper
    have product := val_times (R := R) hb hd
    refine ⟨(defined_div _ _).mpr ⟨ha, defined_times hb hd, ?_⟩, ?_⟩
    · rw [product]
      exact mul_ne_zero inner outer
    · rw [val_div, val_div, product, val_node_divide, div_div]
  | case2 n b c other ih =>
    refine Keeps.trans (fun h => ?_) ih
    obtain ⟨hn, lower, outer⟩ := (defined_div _ _).mp h
    obtain ⟨hb, hc, inner⟩ := (defined_node_divide b c).mp lower
    rw [val_node_divide] at outer
    have nonzero : R.val b ≠ 0 := fun zero => outer (by rw [zero, zero_div])
    refine ⟨(defined_div _ _).mpr ⟨defined_times hn hc, hb, nonzero⟩, ?_⟩
    rw [val_div, val_div, val_times hn hc, val_node_divide, div_div_eq_mul_div]
  | case3 => exact Keeps.refl _

theorem ofNumerals_keeps (x y : Numeral) :
    R.Keeps (.div (.number x) (.number y)) (Cancellation.ofNumerals x y).expr := by
  intro h
  obtain ⟨hx, hy, nonzero⟩ := (defined_div _ _).mp h
  obtain ⟨r, rfl⟩ := Numeral.exists_exact hx
  obtain ⟨s, rfl⟩ := Numeral.exists_exact hy
  have divisor : s ≠ 0 := fun zero => nonzero (by simp [zero])
  have den : (((r / s : Rat).den : ℤ) : K) ≠ 0 := by simp
  simp only [Cancellation.ofNumerals, Numeral.div_exact divisor, defined_div, val_div, val_ofInt,
    val_exact]
  refine ⟨⟨defined_ofInt _, defined_ofInt _, den⟩, ?_⟩
  rw [Int.cast_natCast, ← Rat.cast_def, Rat.cast_div]

theorem ofTerms_keeps {q : Quotient} {top bottom : FactoredTerm} (h : R.Defined q.toExpr)
    (ht : R.TermDefined top) (hb : R.TermDefined bottom) (above : R.termVal top = R.val q.num)
    (below : R.termVal bottom = R.val q.den) :
    R.Defined (Cancellation.ofTerms q top bottom).expr ∧
      R.val (Cancellation.ofTerms q top bottom).expr = R.val q.toExpr := by
  obtain ⟨r, hr⟩ := Numeral.exists_exact ht.1
  obtain ⟨s, hs⟩ := Numeral.exists_exact hb.1
  have nonzero : R.val q.den ≠ 0 := ((defined_div _ _).mp h).2.2
  have same : R.val q.toExpr = R.termVal top / R.termVal bottom := by
    rw [Quotient.toExpr, val_div, above, below]
  rw [← below, termVal, hs, Numeral.val_exact] at nonzero
  obtain ⟨divisor, powersNonzero⟩ := mul_ne_zero_iff.mp nonzero
  obtain ⟨netTop, netBottom, remains, value⟩ := netPowers_spec ht.2 hb.2 powersNonzero
  have den : (((r / s : Rat).den : ℤ) : K) ≠ 0 := by simp
  obtain ⟨upper, upperValue⟩ := toExpr_spec (R := R)
    (t := ⟨.ofInt (r / s).num, (netPowers top.powers bottom.powers).top⟩) ⟨rfl, netTop⟩
  obtain ⟨lower, lowerValue⟩ := toExpr_spec (R := R)
    (t := ⟨.ofInt (r / s).den, (netPowers top.powers bottom.powers).bottom⟩) ⟨rfl, netBottom⟩
  have lowerNonzero : R.val (FactoredTerm.toExpr
      ⟨.ofInt (r / s).den, (netPowers top.powers bottom.powers).bottom⟩) ≠ 0 := by
    rw [lowerValue, termVal, Numeral.val_ofInt]
    exact mul_ne_zero den remains
  have ratio : ((r / s).num : K) / (r / s).den = r / s := by rw [← Rat.cast_def, Rat.cast_div]
  have netted : R.termVal ⟨.ofInt (r / s).num, (netPowers top.powers bottom.powers).top⟩ /
      R.termVal ⟨.ofInt (r / s).den, (netPowers top.powers bottom.powers).bottom⟩ =
      R.val q.toExpr := by
    rw [same]
    simp only [termVal, hr, hs, Numeral.val_exact, Numeral.val_ofInt, Int.cast_natCast]
    rw [mul_div_mul_comm, mul_div_mul_comm, ratio, (div_eq_div_iff remains powersNonzero).mpr value]
  unfold Cancellation.ofTerms
  simp only [hr, hs, netCoefficients]
  split
  · exact ⟨h, rfl⟩
  · split
    · exact ⟨h, rfl⟩
    · split
      · rename_i gone
        rw [Bool.and_eq_true, List.isEmpty_iff] at gone
        obtain ⟨empty, one⟩ := gone
        refine ⟨upper, ?_⟩
        have lowerOne : R.termVal
            ⟨.ofInt (r / s).den, (netPowers top.powers bottom.powers).bottom⟩ = 1 := by
          have : ((r / s).den : Rat) = 1 := by simpa [Numeral.ofInt] using one
          have : (r / s).den = 1 := by exact_mod_cast this
          simp [termVal, empty, this]
        rw [upperValue, ← netted, lowerOne, div_one]
      · refine ⟨(defined_div _ _).mpr ⟨upper, lower, lowerNonzero⟩, ?_⟩
        rw [val_div, upperValue, lowerValue, netted]

theorem ofFlat_keeps (law : R.LawfulUnit) (q : Quotient) :
    R.Keeps q.toExpr (Cancellation.ofFlat q).expr := by
  intro h
  obtain ⟨hn, hd, nonzero⟩ := (defined_div q.num q.den).mp h
  unfold Cancellation.ofFlat
  split
  · rename_i zero
    exact absurd (val_of_isZero hd zero) nonzero
  · split
    · exact ⟨h, rfl⟩
    · split
      · rename_i e found
        exact constantQuotient?_keeps law found h
      · split
        · rename_i x y upper lower
          rw [Quotient.toExpr, upper, lower] at h ⊢
          exact ofNumerals_keeps x y h
        · obtain ⟨top, above⟩ := ofExpr_spec hn
          obtain ⟨bottom, below⟩ := ofExpr_spec hd
          exact ofTerms_keeps h top bottom above below

theorem ofSides_keeps (law : R.LawfulUnit) (n d : Expr) :
    R.Keeps (.div n d) (Cancellation.ofSides n d).expr :=
  (quotientFlatten_keeps n d).trans (ofFlat_keeps law _)

theorem reduceQuotient_keeps (law : R.LawfulUnit) (n d : Expr) :
    R.Keeps (.div n d) (reduceQuotient n d).expr := ofSides_keeps law n d

theorem reduceSharedBases_keeps (law : R.LawfulUnit) (n d : Expr) :
    R.Keeps (.div n d) (reduceSharedBases n d).expr := ofSides_keeps law n d

omit [CharZero K] in
/-- The bar of one factor goes over the whole product. -/
theorem raiseBar_keeps (xs : List Expr) : R.Keeps (.node .multiply xs) (raiseBar xs).expr := by
  unfold raiseBar
  split
  · exact Keeps.refl _
  · rename_i before q after found
    intro h
    rw [eq_append_of_splitAtQuotient found] at h ⊢
    rw [defined_node_multiply] at h
    simp only [List.mem_append, List.mem_cons, or_imp, forall_and, forall_eq] at h
    obtain ⟨hbefore, hq, hafter⟩ := h
    obtain ⟨hn, hd, nonzero⟩ := (defined_div q.num q.den).mp hq
    have factors : ∀ x ∈ before ++ q.num.factors ++ after, R.Defined x := by
      simp only [List.mem_append, or_imp, forall_and]
      exact ⟨⟨hbefore, (defined_factors _).mpr hn⟩, hafter⟩
    refine ⟨(defined_div _ _).mpr ⟨(defined_product _).mpr (defined_filter factors), hd, nonzero⟩, ?_⟩
    simp only [Step.new, val_div, val_product, prod_drop_ones factors, List.map_append,
      List.prod_append, prod_factors, val_node_multiply, List.map_cons, List.prod_cons,
      Quotient.toExpr]
    ring

theorem reduceQuotientsNode_keeps (law : R.LawfulUnit) (e : Expr) :
    R.Keeps e (reduceQuotientsNode e).expr := by
  unfold reduceQuotientsNode
  split
  · exact reduceQuotient_keeps law _ _
  · exact raiseBar_keeps _
  · exact Keeps.refl _

theorem reduceQuotients_keeps (law : R.LawfulUnit) (e : Expr) :
    R.Keeps e (reduceQuotients e).expr :=
  everywhere_keeps (reduceQuotientsNode_keeps law) e

end Reading

end SymbolicAlgebra
