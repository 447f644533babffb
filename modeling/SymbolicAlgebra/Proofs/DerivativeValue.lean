import SymbolicAlgebra.Proofs.DerivativeRules
import SymbolicAlgebra.Proofs.RationalFunctions

/-! The derivative as the rules give it is the derivative: each rule takes derivatives of the parts to
one of the whole, wherever all of them have values. -/
namespace SymbolicAlgebra

namespace DifferentialReading

variable {K : Type*} [Field K] {M : DifferentialReading K} {x : String}

/-! ## Constants -/

theorem values?_forall {P : K → Prop} {ts : List Expr} {us : List K}
    (each : ∀ t ∈ ts, ∀ v, M.value? t = some v → P v) (h : M.values? ts = some us) :
    ∀ u ∈ us, P u := by
  induction ts generalizing us with
  | nil => simp_all
  | cons t ts ih =>
    obtain ⟨v, hv, rest, hrest, rfl⟩ := values?_cons.mp h
    have first := each t List.mem_cons_self v hv
    have others := ih (fun s member => each s (List.mem_cons_of_mem t member)) hrest
    simpa using ⟨first, others⟩

theorem D_sum_constants {us : List K} (h : ∀ u ∈ us, M.D u = 0) : M.D us.sum = 0 := by
  induction us with
  | nil => simp
  | cons u us ih => simp_all

theorem D_prod_constants {us : List K} (h : ∀ u ∈ us, M.D u = 0) : M.D us.prod = 0 := by
  induction us with
  | nil => simp
  | cons u us ih => simp_all

theorem D_quotient_constants {a b v : K} (ha : M.D a = 0) (hb : M.D b = 0)
    (h : quotient? a b = some v) : M.D v = 0 := by
  obtain ⟨-, rfl⟩ := quotient?_eq_some.mp h
  simp [Derivation.leibniz_div, ha, hb]

theorem D_numeral (laws : M.Lawful x) {n : Numeral} {v : K} (h : M.numeral? n = some v) :
    M.D v = 0 := by
  cases n with
  | exact r => exact D_quotient_constants (M.D.map_intCast _) (M.D.map_natCast _) h
  | float f => exact laws.float_constant h
  | nan => cases h

theorem D_operate (laws : M.Lawful x) {op : Operator} {us : List K} {v : K}
    (each : ∀ u ∈ us, M.D u = 0) (h : M.operate? op us = some v) : M.D v = 0 := by
  unfold operate? at h
  split at h
  · cases h
    exact D_sum_constants each
  · cases h
    exact D_prod_constants each
  · cases h
    simp_all
  · exact D_quotient_constants (each _ (by simp)) (each _ (by simp)) h
  · exact laws.power_constant (each _ (by simp)) (each _ (by simp)) h
  iterate 3 · cases h
  · exact laws.integral_constant each h

/-- Without the symbol an expression is a constant. -/
theorem D_value_of_free (laws : M.Lawful x) {e : Expr} (free : e.mentions x = false) {v : K}
    (h : M.value? e = some v) : M.D v = 0 := by
  induction e generalizing v with
  | number n => exact D_numeral laws h
  | complex z =>
    simp only [value?, Option.bind_eq_bind, Option.bind_eq_some_iff, Option.pure_def,
      Option.some.injEq] at h
    obtain ⟨unit, hunit, re, hre, im, him, rfl⟩ := h
    simp [D_numeral laws hre, D_numeral laws him, laws.unit_constant hunit]
  | ident name =>
    obtain rfl : M.ident name = v := by simpa using h
    exact laws.ident_other name (by simpa using free)
  | call f ts ih =>
    obtain ⟨us, hus, hv⟩ := value?_call.mp h
    rw [Expr.mentions_call, List.any_eq_false] at free
    exact laws.call_constant
      (values?_forall (fun t member v => ih t member (by simpa using free t member)) hus) hv
  | node op ts ih =>
    obtain ⟨us, hus, hv⟩ := value?_node.mp h
    rw [Expr.mentions_node, List.any_eq_false] at free
    exact D_operate laws
      (values?_forall (fun t member v => ih t member (by simpa using free t member)) hus) hv

/-! ## The rules -/

/-- Wherever both have values, that of `d` is the derivative of that of `e`. -/
def Derives (M : DifferentialReading K) (e d : Expr) : Prop :=
  ∀ v w, M.value? e = some v → M.value? d = some w → w = M.D v

theorem derives_zero (laws : M.Lawful x) {e : Expr} (free : e.mentions x = false) :
    M.Derives e .zero := by
  intro v w hv hw
  obtain rfl : 0 = w := by simpa using hw
  exact (D_value_of_free laws free hv).symm

theorem Derives.of_value {e e' d : Expr} (same : ∀ v, M.value? e = some v → M.value? e' = some v)
    (h : M.Derives e' d) : M.Derives e d := fun v w hv hw => h v w (same v hv) hw

theorem Derives.sum {ts ds : List Expr} (each : List.Forall₂ M.Derives ts ds) :
    M.Derives (.node .add ts) (.sum ds) := by
  have pointwise : ∀ us ws, M.values? ts = some us → M.values? ds = some ws →
      ws.sum = M.D us.sum := by
    induction each with
    | nil => simp
    | cons first _ ih =>
      intro us ws hus hws
      obtain ⟨u, hu, us', hus', rfl⟩ := values?_cons.mp hus
      obtain ⟨w, hw, ws', hws', rfl⟩ := values?_cons.mp hws
      rw [List.sum_cons, List.sum_cons, map_add, first u w hu hw, ih us' ws' hus' hws']
  intro v w hv hw
  obtain ⟨us, hus, rfl⟩ : ∃ us, M.values? ts = some us ∧ us.sum = v := by
    simpa [operate?] using hv
  obtain ⟨ws, hws, rfl⟩ := value?_sum.mp hw
  exact pointwise us ws hus hws

theorem Derives.sub {a b da db : Expr} (ha : M.Derives a da) (hb : M.Derives b db) :
    M.Derives (.sub a b) (.sub da db) := by
  intro v w hv hw
  obtain ⟨p, hp, q, hq, rfl⟩ := value?_sub.mp hv
  obtain ⟨dp, hdp, dq, hdq, rfl⟩ := value?_sub.mp hw
  rw [ha p dp hp hdp, hb q dq hq hdq, map_sub]

theorem Derives.times {a b da db : Expr} (ha : M.Derives a da) (hb : M.Derives b db) :
    M.Derives (.product [a, b]) (.sum [.product [da, b], .product [a, db]]) := by
  intro v w hv hw
  obtain ⟨p, hp, q, hq, rfl⟩ := value?_times.mp hv
  simp only [value?_plus, value?_times, hp, hq, Option.some.injEq, exists_eq_left'] at hw
  obtain ⟨_, ⟨dp, hdp, rfl⟩, _, ⟨dq, hdq, rfl⟩, rfl⟩ := hw
  rw [ha p dp hp hdp, hb q dq hq hdq, M.D.leibniz, smul_eq_mul, smul_eq_mul]
  ring

theorem Derives.quotient {a b da db : Expr} (ha : M.Derives a da) (hb : M.Derives b db)
    (laws : M.Lawful x) : M.Derives (.div a b) (Expr.quotientDerivative a b da db) := by
  intro v w hv hw
  obtain ⟨p, hp, q, hq, nonzero, rfl⟩ := value?_div.mp hv
  simp only [Expr.quotientDerivative, value?_div, value?_sub, value?_times, value?_pow, hp, hq,
    value?_ofInt, Option.some.injEq, exists_eq_left'] at hw
  obtain ⟨_, ⟨_, ⟨dp, hdp, rfl⟩, _, ⟨dq, hdq, rfl⟩, rfl⟩, square, hsquare, -, rfl⟩ := hw
  have squared : square = q ^ 2 := laws.power_natural two_pos (by exact_mod_cast hsquare)
  rw [ha p dp hp hdp, hb q dq hq hdq, squared, M.D.leibniz_div, smul_eq_mul, smul_eq_mul,
    smul_eq_mul]
  field_simp

theorem Derives.div_constant {a b da : Expr} (ha : M.Derives a da)
    (constant : ∀ v, M.value? b = some v → M.D v = 0) :
    M.Derives (.div a b) (.div da b) := by
  intro v w hv hw
  obtain ⟨p, hp, q, hq, nonzero, rfl⟩ := value?_div.mp hv
  simp only [value?_div, hq, Option.some.injEq, exists_eq_left'] at hw
  obtain ⟨dp, hdp, -, rfl⟩ := hw
  rw [ha p dp hp hdp, M.D.leibniz_div_const p q (constant q hq), smul_eq_mul]
  field_simp

/-! ### Powers -/

theorem value?_ofNumeral (n : Numeral) : M.value? (.ofNumeral n) = M.numeral? n := by
  cases n with
  | exact r =>
    rw [Expr.ofNumeral, Expr.ofRat]
    split
    · rfl
    · ext v
      simp [numeral?]
  | float f => rfl
  | nan => rfl

theorem numeral?_sub_one (laws : M.Lawful x) {n : Numeral} {c l : K}
    (hc : M.numeral? n = some c) (hl : M.numeral? (n.sub .one) = some l) : l = c - 1 := by
  cases n with
  | exact r =>
    obtain ⟨nonzero, rfl⟩ := quotient?_eq_some.mp hc
    obtain ⟨nonzero', rfl⟩ := quotient?_eq_some.mp hl
    have cast : ((r - 1 : Rat) : K) = r - (1 : Rat) :=
      Rat.cast_sub_of_ne_zero nonzero (by simp)
    rwa [Rat.cast_def, Rat.cast_def r, Rat.cast_one] at cast
  | float f => exact laws.float_sub_one hc hl
  | nan => cases hc

/-- The exponent of the lowered power is one less. -/
theorem exists_lowered (laws : M.Lawful x) (base exponent inner : Expr) :
    ∃ lowered, Expr.powerDerivative base exponent inner =
        .product [exponent, .pow base lowered, inner] ∧
      ∀ c l, M.value? exponent = some c → M.value? lowered = some l → l = c - 1 := by
  unfold Expr.powerDerivative
  refine ⟨_, rfl, ?_⟩
  intro c l hc hl
  split at hl
  · rw [value?_ofNumeral] at hl
    exact numeral?_sub_one laws hc hl
  · simp only [value?_plus, hc, value?_ofInt, Option.some.injEq, exists_eq_left'] at hl
    rw [← hl]
    push_cast
    ring

theorem Derives.power {base exponent inner : Expr} (laws : M.Lawful x)
    (hbase : M.Derives base inner) (free : exponent.mentions x = false) :
    M.Derives (.pow base exponent) (Expr.powerDerivative base exponent inner) := by
  intro v w hv hw
  obtain ⟨b, hb, c, hc, hpower⟩ := value?_pow.mp hv
  obtain ⟨lowered, shape, one_less⟩ := exists_lowered (M := M) laws base exponent inner
  rw [shape] at hw
  simp only [value?_times_times, value?_pow, hb, hc, Option.some.injEq, exists_eq_left'] at hw
  obtain ⟨p, ⟨l, hl, hp⟩, db, hdb, rfl⟩ := hw
  rw [one_less c l hc hl] at hp
  rw [laws.power_rule (D_value_of_free laws free hc) hpower hp, hbase b db hb hdb, mul_assoc]

theorem Derives.exponential {base exponent inner : Expr} (laws : M.Lawful x)
    (hexponent : M.Derives exponent inner) (free : base.mentions x = false) :
    M.Derives (.pow base exponent) (Expr.exponentialDerivative base exponent inner) := by
  intro v w hv hw
  have hv' := hv
  obtain ⟨b, hb, c, hc, hpower⟩ := value?_pow.mp hv'
  unfold Expr.exponentialDerivative at hw
  split at hw
  case isTrue euler =>
    obtain rfl : base = .ident "e" := by
      cases base <;> simp_all [Expr.isIdent]
    have other : x ≠ "e" := by
      rintro rfl
      simp at free
    obtain rfl : M.ident "e" = b := by simpa using hb
    simp only [value?_times, hv, Option.some.injEq, exists_eq_left'] at hw
    obtain ⟨dc, hdc, rfl⟩ := hw
    rw [laws.euler_rule other hpower, hexponent c dc hc hdc]
  case isFalse =>
    simp only [value?_times_times, value?_ln, hv, hb, Option.some.injEq, exists_eq_left'] at hw
    obtain ⟨l, hl, dc, hdc, rfl⟩ := hw
    rw [laws.exponential_rule (D_value_of_free laws free hb) hpower hl, hexponent c dc hc hdc,
      mul_assoc]

theorem Derives.general_power {base exponent dBase dExponent : Expr} (laws : M.Lawful x)
    (hbase : M.Derives base dBase) (hexponent : M.Derives exponent dExponent) :
    M.Derives (.pow base exponent)
      (Expr.generalPowerDerivative base exponent dBase dExponent) := by
  intro v w hv hw
  have hv' := hv
  obtain ⟨b, hb, c, hc, hpower⟩ := value?_pow.mp hv'
  simp only [Expr.generalPowerDerivative, value?_times, value?_plus, value?_div, value?_ln, hv, hb,
    hc, Option.some.injEq, exists_eq_left'] at hw
  obtain ⟨_, ⟨_, ⟨dc, hdc, l, hl, rfl⟩, _, ⟨_, ⟨db, hdb, rfl⟩, nonzero, rfl⟩, rfl⟩, rfl⟩ := hw
  rw [laws.general_power_rule nonzero hpower hl, hbase b db hb hdb, hexponent c dc hc hdc]

/-! ### Calls -/

theorem value?_squared (laws : M.Lawful x) {t : Expr} {v : K} :
    M.value? t.squared = some v ↔
      ∃ u, M.value? t = some u ∧ u ^ 2 = v ∧ M.power? u 2 = some v := by
  simp only [Expr.squared, value?_pow, value?_ofInt, Option.some.injEq, exists_eq_left',
    Int.cast_ofNat]
  constructor
  · rintro ⟨u, hu, hpower⟩
    exact ⟨u, hu, (laws.power_natural two_pos (by exact_mod_cast hpower)).symm, hpower⟩
  · rintro ⟨u, hu, -, hpower⟩
    exact ⟨u, hu, hpower⟩

theorem value?_reciprocal {t : Expr} {v : K} :
    M.value? t.reciprocal = some v ↔ ∃ u, M.value? t = some u ∧ u ≠ 0 ∧ 1 / u = v := by
  simp [Expr.reciprocal]

theorem value?_negate_reciprocal {t : Expr} {v : K} :
    M.value? t.reciprocal.negate = some v ↔ ∃ u, M.value? t = some u ∧ u ≠ 0 ∧ -1 / u = v := by
  have shape : t.reciprocal.negate = .div (.ofInt (-1)) t := rfl
  simp [shape]

theorem value?_negate_apply {f : NamedFunction} {t : Expr} {v : K} :
    M.value? (Expr.apply f t).negate = some v ↔
      ∃ u, M.value? (.apply f t) = some u ∧ -u = v := by
  have shape : (Expr.apply f t).negate = .product [.ofInt (-1), .apply f t] := rfl
  simp [shape]

theorem value?_negate_squared {t : Expr} {v : K} :
    M.value? t.squared.negate = some v ↔ ∃ u, M.value? t.squared = some u ∧ -u = v := by
  have shape : t.squared.negate = .product [.ofInt (-1), t.squared] := rfl
  simp [shape]

theorem value?_negate_times {f g : NamedFunction} {t : Expr} {v : K} :
    M.value? (Expr.product [.apply f t, .apply g t]).negate = some v ↔
      ∃ u, M.value? (.product [.apply f t, .apply g t]) = some u ∧ -u = v := by
  have shape : (Expr.product [.apply f t, .apply g t]).negate =
      .product [.ofInt (-1), .apply f t, .apply g t] := rfl
  simp [shape]

/-- Wherever the derivative of a function has a value, that is the textbook slope. -/
theorem slope?_of_derivativeAt? (laws : M.Lawful x) {f : NamedFunction} {arg outer : Expr} {u s : K}
    (known : f ≠ .log) (h : f.derivativeAt? arg = some outer) (hu : M.value? arg = some u)
    (hs : M.value? outer = some s) : M.slope? u f = some s := by
  cases f
  case log => exact absurd rfl known
  case other => cases h
  case' circular r => cases r
  case' arcCircular r => cases r
  case' hyperbolic r => cases r
  case' arcHyperbolic r => cases r
  all_goals
    cases h
    simp only [value?_squared laws, value?_reciprocal, value?_negate_reciprocal,
      value?_negate_apply, value?_negate_squared, value?_negate_times, value?_times, value?_plus,
      value?_sub, value?_one, value?_zero, value?_ofInt, Expr.squareRoot, value?_apply, hu,
      Option.some.injEq, exists_eq_left'] at hs
    simp only [slope?, Option.bind_eq_bind, Option.bind_eq_some_iff, Option.pure_def,
      quotient?_eq_some, Option.some.injEq]
    grind

/-- A logarithm to a constant base. -/
theorem D_logarithm (laws : M.Lawful x) {u top bottom : K} (nonzero : u ≠ 0)
    (htop : M.call? .ln [u] = some top) (constant : M.D bottom = 0) :
    M.D (top / bottom) = M.D u / (u * bottom) := by
  have slope : M.slope? u .ln = some (1 / u) := quotient?_eq_some.mpr ⟨nonzero, rfl⟩
  rw [M.D.leibniz_div_const top bottom constant, laws.call_chain htop slope, smul_eq_mul]
  field_simp

theorem D_log_ten (laws : M.Lawful x) {u v s : K} {arg : Expr} (hu : M.value? arg = some u)
    (hv : M.call? .log [u] = some v)
    (hs : M.value? (.reciprocal (.product [arg, .ln (.ofInt 10)])) = some s) :
    M.D v = s * M.D u := by
  obtain ⟨top, bottom, htop, hbottom, quotient⟩ := laws.log_ten hv
  obtain ⟨-, rfl⟩ := quotient?_eq_some.mp quotient
  have hbottom' : M.call? .ln [((10 : ℤ) : K)] = some bottom := by exact_mod_cast hbottom
  simp only [value?_reciprocal, value?_times, value?_ln, value?_ofInt, hu, hbottom',
    Option.some.injEq, exists_eq_left'] at hs
  obtain ⟨nonzero, rfl⟩ := hs
  have ten : M.D (10 : K) = 0 := by exact_mod_cast M.D.map_natCast 10
  have constant : M.D bottom = 0 := laws.call_constant (by simpa using ten) hbottom
  rw [D_logarithm laws (left_ne_zero_of_mul nonzero) htop constant]
  field_simp

theorem Derives.call {f : NamedFunction} {arg outer inner : Expr} (laws : M.Lawful x)
    (harg : M.Derives arg inner) (h : f.derivativeAt? arg = some outer) :
    M.Derives (.call f [arg]) (.product [outer, inner]) := by
  intro v w hv hw
  obtain ⟨u, hu, hcall⟩ := value?_apply.mp hv
  obtain ⟨s, hs, du, hdu, rfl⟩ := value?_times.mp hw
  rw [harg u du hu hdu]
  by_cases logarithm : f = .log
  · subst logarithm
    cases h
    exact (D_log_ten laws hu hcall hs).symm
  · exact (laws.call_chain hcall (slope?_of_derivativeAt? laws logarithm h hu hs)).symm

/-- A logarithm is read as a quotient of natural ones. -/
theorem value?_log (laws : M.Lawful x) {base arg : Expr} {v : K}
    (h : M.value? (.call .log [base, arg]) = some v) :
    M.value? (.div (.ln arg) (.ln base)) = some v := by
  simp only [value?_call, values?_cons, values?_nil, Option.some.injEq] at h
  obtain ⟨_, ⟨b, hb, _, ⟨u, hu, _, rfl, rfl⟩, rfl⟩, hcall⟩ := h
  obtain ⟨top, bottom, htop, hbottom, quotient⟩ := laws.log_base hcall
  obtain ⟨nonzero, rfl⟩ := quotient?_eq_some.mp quotient
  exact value?_div.mpr ⟨top, value?_ln.mpr ⟨u, hu, htop⟩, bottom, value?_ln.mpr ⟨b, hb, hbottom⟩,
    nonzero, rfl⟩

theorem Derives.log {base arg dTop dBase : Expr} (laws : M.Lawful x)
    (htop : M.Derives (.ln arg) dTop) (hbase : M.Derives base dBase) :
    M.Derives (.call .log [base, arg])
      (Expr.quotientDerivative (.ln arg) (.ln base) dTop (.product [base.reciprocal, dBase])) :=
  .of_value (fun _ => value?_log laws) (.quotient htop (.call laws hbase rfl) laws)

theorem Derives.log_constant_base {base arg inner : Expr} (laws : M.Lawful x)
    (harg : M.Derives arg inner) (free : base.mentions x = false) :
    M.Derives (.call .log [base, arg]) (.div inner (.product [arg, .ln base])) := by
  refine .of_value (fun _ => value?_log laws) ?_
  intro v w hv hw
  obtain ⟨top, htop, bottom, hbottom, nonzero, rfl⟩ := value?_div.mp hv
  obtain ⟨u, hu, hcall⟩ := value?_ln.mp htop
  simp only [value?_div, value?_times, hu, hbottom, Option.some.injEq, exists_eq_left'] at hw
  obtain ⟨du, hdu, nonzero', rfl⟩ := hw
  have constant : M.D bottom = 0 :=
    D_value_of_free laws (by simpa [Expr.ln, Expr.apply] using free) hbottom
  rw [D_logarithm laws (left_ne_zero_of_mul nonzero') hcall constant, harg u du hu hdu]

/-! ## All rules -/

/-- The accumulated product and the factors to come have the value of all factors. -/
theorem value?_accumulated {a b : Expr} {rest : List Expr} {v : K}
    (h : M.value? (.node .multiply (a :: b :: rest)) = some v) :
    M.value? (.node .multiply (.product [a, b] :: rest)) = some v := by
  simp only [value?_node, values?_cons, operate?, Option.some.injEq] at h
  obtain ⟨_, ⟨p, hp, _, ⟨q, hq, vs, hvs, rfl⟩, rfl⟩, rfl⟩ := h
  have both : M.value? (.product [a, b]) = some (p * q) := value?_times.mpr ⟨p, hp, q, hq, rfl⟩
  refine value?_node.mpr ⟨p * q :: vs, values?_cons.mpr ⟨p * q, both, vs, hvs, rfl⟩, ?_⟩
  simp [operate?, mul_assoc]

theorem derives_rules (laws : M.Lawful x) : DerivativeRules x M.Derives where
  constant := derives_zero laws
  symbol := by
    intro v w hv hw
    obtain rfl : M.ident x = v := by simpa using hv
    obtain rfl : 1 = w := by simpa using hw
    exact laws.ident_self.symm
  sum := .sum
  sub := .sub
  single := .of_value fun v hv => by simpa [operate?] using hv
  accumulated := .of_value fun _ => value?_accumulated
  times := .times
  quotient := fun ha hb => .quotient ha hb laws
  quotient_constant := fun ha free => .div_constant ha fun _ => D_value_of_free laws free
  power := .power laws
  exponential := .exponential laws
  general_power := .general_power laws
  call := .call laws
  log := .log laws
  log_constant := .log_constant_base laws

/-- Wherever an expression and its derivative as the rules give it have values, the one is the
derivative of the other. -/
theorem rawDerivative_value (laws : M.Lawful x) {e d : Expr} (h : e.rawDerivative x = .ok d)
    {v w : K} (hv : M.value? e = some v) (hw : M.value? d = some w) : w = M.D v :=
  (derives_rules laws).rawDerivative h v w hv hw

/-- The rules for products, quotients, powers and calls at once: `x * sqrt(x ^ 2) / y` as a rational
function. -/
theorem rawDerivative_value_of_rational_function :
    let M := RationalFunction.reading (FractionRing (MvPolynomial String ℤ)) "x"
    let root : Expr := .apply .sqrt (.pow (.ident "x") (.ofInt 2))
    let e : Expr := .div (.product [.ident "x", root]) (.ident "y")
    ∃ d v w, e.rawDerivative "x" = .ok d ∧ M.value? e = some v ∧ M.value? d = some w ∧ w = M.D v := by
  intro M root e
  let x := RationalFunction.variableNamed (FractionRing (MvPolynomial String ℤ)) "x"
  let y := RationalFunction.variableNamed (FractionRing (MvPolynomial String ℤ)) "y"
  have hx : x ≠ 0 := RationalFunction.variableNamed_ne_zero _ "x"
  have hy : y ≠ 0 := RationalFunction.variableNamed_ne_zero _ "y"
  have := RationalFunction.charZero (FractionRing (MvPolynomial String ℤ))
  have power (n : ℕ) (b : FractionRing (MvPolynomial String ℤ)) : M.power? b n = some (b ^ n) :=
    naturalPower?_eq_some.mpr ⟨n, rfl, rfl⟩
  obtain ⟨r, hr⟩ := exists_squareRoot? x
  have hr0 : r ≠ 0 := by
    rintro rfl
    exact pow_ne_zero 2 hx ((sq_of_squareRoot? hr).symm.trans (zero_pow two_ne_zero))
  have hroot : M.value? root = some r :=
    value?_apply.mpr ⟨x ^ 2, value?_pow.mpr ⟨x, value?_ident "x", 2, value?_ofInt 2, power 2 x⟩, hr⟩
  have hv : M.value? e = some (x * r / y) :=
    value?_div.mpr ⟨x * r, value?_times.mpr ⟨x, value?_ident "x", r, hroot, rfl⟩, y,
      value?_ident "y", hy, rfl⟩
  let lowered : Expr := .pow (.ident "x") (.ofNumeral ((Numeral.ofInt 2).sub .one))
  let slope : Expr := .reciprocal (.product [.ofInt 2, root])
  have raw : e.rawDerivative "x" = .ok (.div (.sum [.product [.one, root],
      .product [.ident "x", .product [slope, .product [.ofInt 2, lowered, .one]]]])
        (.ident "y")) := rfl
  have hlowered : M.value? lowered = some (x ^ 1) := by
    refine value?_pow.mpr ⟨x, value?_ident "x", (1 : ℕ), ?_, power 1 x⟩
    rw [value?_ofNumeral]
    norm_num [Numeral.sub, Numeral.lift₂, Numeral.ofInt, Numeral.one, numeral?]
  have hslope : M.value? slope = some (1 / (2 * r)) :=
    value?_reciprocal.mpr ⟨2 * r, value?_times.mpr ⟨2, value?_ofInt 2, r, hroot, rfl⟩,
      mul_ne_zero two_ne_zero hr0, rfl⟩
  have hw : M.value? (.div (.sum [.product [.one, root],
      .product [.ident "x", .product [slope, .product [.ofInt 2, lowered, .one]]]])
        (.ident "y")) = some ((1 * r + x * (1 / (2 * r) * (2 * (x ^ 1 * 1)))) / y) := by
    simp only [value?_div, value?_plus, value?_times, value?_times_times, value?_ident, value?_one,
      value?_ofInt, hroot, hlowered, hslope, Option.some.injEq, exists_eq_left', Int.cast_ofNat]
    exact ⟨hy, rfl⟩
  exact ⟨_, _, _, raw, hv, hw,
    rawDerivative_value (RationalFunction.reading_lawful _ "x") raw hv hw⟩

end DifferentialReading

end SymbolicAlgebra
