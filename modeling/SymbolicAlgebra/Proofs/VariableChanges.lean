import SymbolicAlgebra.Proofs.Replacement
import SymbolicAlgebra.Proofs.SubstitutionValue
import SymbolicAlgebra.Proofs.SymbolicPolynomials

/-! A change of variable in a field with a derivation: for `u` with a slope `u'` that is not zero,
`D / u'` is the derivation by `u`, and the rules of calculus hold for it. What is an antiderivative by
the new symbol, times the scale and with the candidate put back, is one by the old. -/
namespace SymbolicAlgebra

namespace DifferentialReading

variable {K : Type*} [Field K] {M : DifferentialReading K} {x u name : String} {c v w : K}

/-! ## Other values for identifiers -/

/-- What is read, without the derivation. -/
noncomputable def algebra (M : DifferentialReading K) : PartialAlgebra K where
  number := M.numeral?
  complex z := M.value? (.complex z)
  ident name := some (M.ident name)
  call f vs := (vs.mapM id).bind (M.call? f)
  node op vs := (vs.mapM id).bind (M.operate? op)

theorem values?_eq_mapM (ts : List Expr) : M.values? ts = (ts.map M.value?).mapM id := by
  induction ts with
  | nil => rfl
  | cons t ts ih => simp [values?, ih]

theorem value?_algebra (e : Expr) : M.algebra.value? e = M.value? e := by
  induction e with
  | number n => exact (value?_number n).symm
  | complex z => rfl
  | ident name => exact (value?_ident name).symm
  | call f ts ih =>
    rw [PartialAlgebra.value?_call, List.map_congr_left ih, value?, values?_eq_mapM]
    rfl
  | node op ts ih =>
    rw [PartialAlgebra.value?_node, List.map_congr_left ih, value?, values?_eq_mapM]
    rfl

/-- Values depend on nothing but what is read. -/
theorem value?_congr {N : DifferentialReading K} (same : M.algebra = N.algebra) (e : Expr) :
    M.value? e = N.value? e := by
  rw [← value?_algebra, ← value?_algebra, same]

/-- The reading with another value for one identifier. -/
def assign (M : DifferentialReading K) (name : String) (v : K) : DifferentialReading K :=
  { M with ident := Function.update M.ident name v }

@[simp] theorem assign_ident_self (name : String) (v : K) : (M.assign name v).ident name = v :=
  Function.update_self ..

@[simp] theorem assign_ident_of_ne {other : String} (different : other ≠ name) (v : K) :
    (M.assign name v).ident other = M.ident other := Function.update_of_ne different ..

theorem algebra_assign (M : DifferentialReading K) (name : String) (v : K) :
    (M.assign name v).algebra = M.algebra.assign name (some v) := by
  have idents : (fun other => some (Function.update M.ident name v other)) =
      Function.update (fun other => some (M.ident other)) name (some v) :=
    Function.comp_update some M.ident name v
  unfold PartialAlgebra.assign
  simp only [algebra, assign, idents]
  rfl

/-- An identifier that does not occur does not matter. -/
theorem value?_assign_of_free {e : Expr} (free : e.mentions name = false) (v : K) :
    (M.assign name v).value? e = M.value? e := by
  induction e with
  | number n => rfl
  | complex z => rfl
  | ident other =>
    rw [value?_ident, value?_ident, assign_ident_of_ne (by simpa using free)]
  | call f ts ih =>
    have each : ∀ t ∈ ts, t.mentions name = false := by simpa using free
    rw [value?, value?, values?_eq_mapM, values?_eq_mapM,
      List.map_congr_left fun t member => ih t member (each t member)]
    rfl
  | node op ts ih =>
    have each : ∀ t ∈ ts, t.mentions name = false := by simpa using free
    rw [value?, value?, values?_eq_mapM, values?_eq_mapM,
      List.map_congr_left fun t member => ih t member (each t member)]
    rfl

theorem value?_replaceIdent {replacement : Expr} (h : M.value? replacement = some v) (e : Expr) :
    M.value? (e.replaceIdent name replacement).expr = (M.assign name v).value? e := by
  rw [← value?_algebra, PartialAlgebra.value?_replaceIdent, value?_algebra, h, ← algebra_assign,
    value?_algebra]

theorem value?_replace {target replacement : Expr} (same : M.value? target = M.value? replacement)
    (e : Expr) : M.value? (Expr.replace target replacement e).expr = M.value? e := by
  rw [← value?_algebra, ← value?_algebra]
  exact PartialAlgebra.value?_replace (by rw [value?_algebra, value?_algebra, same]) e

/-! ## The derivation by a new symbol -/

/-- The reading in which `u` is the variable, with the value `v`, and the old one is no more. -/
noncomputable def change (M : DifferentialReading K) (x u : String) (v : K) :
    DifferentialReading K :=
  { (M.assign x 0).assign u v with D := (M.D v)⁻¹ • M.D }

theorem value?_change (e : Expr) :
    (M.change x u v).value? e = ((M.assign x 0).assign u v).value? e :=
  value?_congr (show (M.change x u v).algebra = ((M.assign x 0).assign u v).algebra from rfl) e

/-- Without the old symbol it is as if only the new one were assigned. -/
theorem value?_change_of_free {e : Expr} (free : e.mentions x = false) (different : u ≠ x) :
    (M.change x u v).value? e = (M.assign u v).value? e := by
  have swapped : (M.assign x 0).assign u v = (M.assign u v).assign x 0 := by
    unfold assign
    rw [Function.update_comm different]
  rw [value?_change, swapped, value?_assign_of_free free]

@[simp] theorem D_change (a : K) : (M.change x u v).D a = (M.D v)⁻¹ * M.D a := rfl

theorem ident_change_e (other : "e" ≠ u) :
    (M.change x u v).ident "e" = if x = "e" then 0 else M.ident "e" := by
  have kept : (M.change x u v).ident "e" = (M.assign x 0).ident "e" := assign_ident_of_ne other v
  rw [kept]
  split
  · rename_i same
    rw [same, assign_ident_self]
  · rename_i different
    exact assign_ident_of_ne (Ne.symm different) 0

/-- The rules of calculus hold for the new symbol. The powers of Euler's number are lost where that
is the old one. -/
theorem Elementary.change (laws : M.Elementary x) (other : "e" ≠ u) (nonzero : M.D v ≠ 0) :
    (M.change x u v).Elementary u := by
  have constant {a : K} : (M.change x u v).D a = 0 ↔ M.D a = 0 := by simp [nonzero]
  exact {
    ident_self := by
      rw [D_change]
      exact (congrArg _ (congrArg M.D (assign_ident_self u v))).trans (inv_mul_cancel₀ nonzero)
    ident_other := fun name different => by
      have kept : (M.change x u v).ident name = (M.assign x 0).ident name :=
        assign_ident_of_ne different v
      rw [constant, kept]
      by_cases old : name = x
      · rw [old, assign_ident_self, map_zero]
      · rw [assign_ident_of_ne old, laws.ident_other name old]
    float_constant := fun h => constant.mpr (laws.float_constant h)
    float_sub_one := laws.float_sub_one
    unit_constant := fun h => constant.mpr (laws.unit_constant h)
    call_constant := fun each h =>
      constant.mpr (laws.call_constant (fun a member => constant.mp (each a member)) h)
    power_constant := fun hb hc h =>
      constant.mpr (laws.power_constant (constant.mp hb) (constant.mp hc) h)
    integral_constant := fun each h =>
      constant.mpr (laws.integral_constant (fun a member => constant.mp (each a member)) h)
    call_chain := fun h slope => by
      rw [D_change, D_change, laws.call_chain h slope, mul_left_comm]
    log_ten := laws.log_ten
    log_base := laws.log_base
    power_natural := laws.power_natural
    power_rule := fun hc h lowered => by
      rw [D_change, D_change, laws.power_rule (constant.mp hc) h lowered, mul_left_comm]
    exponential_rule := fun hb h logarithm => by
      rw [D_change, D_change, laws.exponential_rule (constant.mp hb) h logarithm, mul_left_comm]
    euler_rule := fun {c w} _ h => by
      rw [ident_change_e other] at h
      rw [D_change, D_change]
      split at h
      · by_cases none : c = 0
        · have one : M.power? 0 0 = some 1 := by simpa using laws.natural_power 0 0
          rw [none] at h
          obtain rfl := Option.some.inj (one.symm.trans h)
          rw [none, map_zero, M.D.map_one_eq_zero, mul_zero, mul_zero]
        · rw [laws.power_of_zero none h, map_zero, mul_zero, zero_mul]
      · rename_i different
        rw [laws.euler_rule different h, mul_left_comm]
    general_power_rule := fun hb h logarithm => by
      rw [D_change, D_change, D_change, laws.general_power_rule hb h logarithm]
      ring
    exact := laws.exact
    natural_power := laws.natural_power
    opposite_power := laws.opposite_power
    power_of_zero := laws.power_of_zero
    circular := ⟨laws.circular.ratios, laws.circular.unit, laws.circular.add, laws.circular.neg⟩
    hyperbolic :=
      ⟨laws.hyperbolic.ratios, laws.hyperbolic.unit, laws.hyperbolic.add, laws.hyperbolic.neg⟩
    ln_ne_zero := laws.ln_ne_zero
    abs := laws.abs
    sqrt := laws.sqrt }

/-! ## Substitutions -/

section Substitution

variable {simplify : Expr → Expr} {candidate inverse result e g f d : Expr} {s : Substitution}

/-- The old symbol in terms of the new one, which stands for a linear candidate. -/
theorem value?_variableOfLinearUsing? (laws : M.Elementary x) (keeps : M.KeepsValues simplify)
    (simple : AddsNoNames simplify)
    (words : Polynomial.inWords (symbolicCoefficients simplify) x candidate = true)
    (found : variableOfLinearUsing? simplify x candidate (.ident u) = some inverse)
    (fresh : candidate.mentions u = false) (hc : M.value? candidate = some c)
    (nonzero : M.D c ≠ 0) : (M.assign u c).value? inverse = some (M.ident x) := by
  unfold variableOfLinearUsing? at found
  dsimp only at found
  split at found
  · rename_i p read
    split at found
    · rename_i linear
      cases found
      have polynomial := value_of_ofExpr? laws keeps read words hc
      obtain ⟨a, b, ha, hb, rfl, slope⟩ :=
        D_of_linear laws keeps polynomial (Polynomial.Ascending.upTo polynomial.1.ascending linear)
      have elsewhere (n : Nat) := value?_assign_of_free (M := M) (v := a * M.ident x + b) <|
        Expr.namesIn_others.mp
          (namesIn_symbolicCoeff simple (Expr.namesIn_others.mpr fresh) read n)
      have difference := value?_sub.mpr
        ⟨_, value?_ident u, _, (elsewhere 0).trans hb, rfl⟩
      refine value?_div.mpr ⟨_, difference, _, (elsewhere 1).trans ha, slope ▸ nonzero, ?_⟩
      rw [assign_ident_self, add_sub_cancel_right, mul_div_cancel_left₀ _ (slope ▸ nonzero)]
    · cases found
  · cases found

/-- An integrand rid of the old symbol has the value that it had. -/
theorem value?_inNewSymbolUsing? (laws : M.Elementary x) (keeps : M.KeepsValues simplify)
    (simple : AddsNoNames simplify) (keepsThere : (M.assign u c).KeepsValues simplify)
    (words : Polynomial.inWords (symbolicCoefficients simplify) x candidate = true)
    (found : inNewSymbolUsing? simplify x candidate (.ident u) result = some g)
    (fresh : candidate.mentions u = false) (different : u ≠ x) (hc : M.value? candidate = some c)
    (nonzero : M.D c ≠ 0) (hr : (M.assign u c).value? result = some v) :
    (M.assign u c).value? g = some v := by
  obtain ⟨found, -⟩ := Option.filter_eq_some_iff.mp found
  split at found
  · obtain ⟨inverse, linear, rfl⟩ := Option.map_eq_some_iff.mp found
    have there := value?_variableOfLinearUsing? laws keeps simple words linear fresh hc nonzero
    have same : (M.assign u c).assign x (M.ident x) = M.assign u c := by
      rw [← assign_ident_of_ne (M := M) (Ne.symm different) c, assign, Function.update_eq_self]
    refine keepsThere _ _ ?_
    rw [value?_replaceIdent there, same, hr]
  · cases found
    exact keepsThere _ _ hr

/-- With the new symbol for the candidate, scale and integrand times the derivative of the candidate
are the expression. -/
theorem value?_substitutionUsing? (laws : M.Elementary x) (keeps : M.KeepsValues simplify)
    (simple : AddsNoNames simplify) (keepsThere : (M.assign s.symbol c).KeepsValues simplify)
    (words : Polynomial.inWords (symbolicCoefficients simplify) x candidate = true)
    (found : substitutionUsing? simplify x candidate e = some s)
    (fresh : candidate.mentions s.symbol = false) (different : s.symbol ≠ x)
    (hc : M.value? candidate = some c) (raw : candidate.rawDerivative x = .ok d)
    (hd : (M.value? d).isSome) (nonzero : M.D c ≠ 0) (he : M.value? e = some v) :
    ∃ a b, (M.assign s.symbol c).value? s.scale = some a ∧
      (M.assign s.symbol c).value? s.integrand = some b ∧ a * b * M.D c = v := by
  obtain ⟨d', g, raw', symbol, made, scale, integrand⟩ := exists_of_substitutionUsing? found
  obtain rfl : d = d' := Except.ok.inj (raw.symm.trans raw')
  obtain ⟨absent, -⟩ := names_of_substitutionUsing? found
  set M' := M.assign s.symbol c with hM'
  -- The candidate, its derivative and the expression are the same there, without the new symbol.
  have hc' : M'.value? candidate = some c := (value?_assign_of_free fresh c).trans hc
  have he' : M'.value? e = some v := (value?_assign_of_free absent c).trans he
  have hd' : M'.value? (simplify d) = some (M.D c) := by
    obtain ⟨slope, hd⟩ := Option.isSome_iff_exists.mp hd
    have free : d.mentions s.symbol = false := Expr.namesIn_others.mp <|
      (derivativeRules_namesIn _ x).rawDerivative raw (Expr.namesIn_others.mpr fresh)
    obtain rfl := (derives_rules laws.toLawful).rawDerivative raw c slope hc hd
    exact keepsThere _ _ ((value?_assign_of_free free c).trans hd)
  have stands : M'.value? candidate = M'.value? (.ident s.symbol) := by
    rw [hc', value?_ident, hM', assign_ident_self]
  have hg : M'.value? g = some (v / M.D c) := by
    rcases made with replacedFirst | dividedFirst
    · refine value?_inNewSymbolUsing? laws keeps simple keepsThere words replacedFirst fresh different
        hc nonzero (keepsThere _ _ ?_)
      exact value?_div.mpr ⟨v, (value?_replace stands e).trans he', _, hd', nonzero, rfl⟩
    · refine value?_inNewSymbolUsing? laws keeps simple keepsThere words dividedFirst fresh different
        hc nonzero ((value?_replace stands _).trans (keepsThere _ _ ?_))
      exact value?_div.mpr ⟨v, he', _, hd', nonzero, rfl⟩
  have exact : M'.Exact := laws.exact
  obtain ⟨r, t, hr, ht, multiple⟩ := exact.value?_asMultiple hg
  obtain ⟨a, b, ha, hb, rfl⟩ := value?_freeAndBound (x := s.symbol) ht
  rw [scale, integrand]
  refine ⟨r * a, b, exact.value?_scale hr ha, hb, ?_⟩
  rw [mul_assoc r, multiple, div_mul_cancel₀ _ nonzero]

/-- An antiderivative by the new symbol, times the scale and with the candidate for the symbol, is
one by the old symbol. -/
theorem derives_substituted (laws : M.Elementary x) (keeps : M.KeepsValues simplify)
    (simple : AddsNoNames simplify) (keepsThere : (M.assign s.symbol c).KeepsValues simplify)
    (words : Polynomial.inWords (symbolicCoefficients simplify) x candidate = true)
    (found : substitutionUsing? simplify x candidate e = some s)
    (fresh : candidate.mentions s.symbol = false) (different : s.symbol ≠ x)
    (hc : M.value? candidate = some c) (raw : candidate.rawDerivative x = .ok d)
    (hd : (M.value? d).isSome) (nonzero : M.D c ≠ 0)
    (free : f.mentions x = false) (hf : (M.value? (f.replaceIdent s.symbol candidate).expr).isSome)
    (inner : (M.change x s.symbol c).Derives f s.integrand) :
    M.Derives (s.scale.times (f.replaceIdent s.symbol candidate).expr) e := by
  intro v w hv hw
  obtain ⟨-, scaleFree, integrandFree, scaleFresh⟩ := names_of_substitutionUsing? found
  obtain ⟨a, b, ha, hb, rfl⟩ :=
    value?_substitutionUsing? laws keeps simple keepsThere words found fresh different hc raw hd
      nonzero hw
  obtain ⟨z, hz⟩ := Option.isSome_iff_exists.mp hf
  have ha' : M.value? s.scale = some a := (value?_assign_of_free scaleFresh c).symm.trans ha
  obtain rfl := Option.some.inj <|
    (laws.exact.readsNumerals.value?_mul ha' hz).symm.trans hv
  have slope : b = (M.D c)⁻¹ * M.D z := by
    refine inner z b ?_ ?_
    · rw [value?_change_of_free free different, ← value?_replaceIdent hc, hz]
    · rw [value?_change_of_free integrandFree different, hb]
  rw [M.D.leibniz, D_value_of_free laws.toLawful scaleFree ha', slope, smul_eq_mul, smul_eq_mul,
    mul_zero, add_zero]
  field_simp

end Substitution

end DifferentialReading

end SymbolicAlgebra
