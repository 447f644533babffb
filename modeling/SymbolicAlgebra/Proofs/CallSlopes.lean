import SymbolicAlgebra.Calculus.Elementary
import SymbolicAlgebra.Proofs.ElementaryLaws

/-! The antiderivatives of calls of the symbol in a field with a derivation: wherever one and its
integrand have values, the integrand is the derivative. -/
namespace SymbolicAlgebra

namespace DifferentialReading

variable {K : Type*} [Field K] {M : DifferentialReading K} {x : String} {F : Expr} {u v w : K}

/-! ## Values of calls of the symbol -/

@[simp] theorem value?_apply_ident {f : NamedFunction} :
    M.value? (.apply f (.ident x)) = some v ↔ M.call? f [M.ident x] = some v := by
  simp

@[simp] theorem value?_negate_apply_ident {f : NamedFunction} :
    M.value? (Expr.apply f (.ident x)).negate = some v ↔
      ∃ a, M.call? f [M.ident x] = some a ∧ -a = v := by
  simp [value?_negate_apply]

theorem value?_half {e : Expr} (h : M.value? e.half = some v) :
    ∃ a, M.value? e = some a ∧ a / 2 = v := by
  obtain ⟨a, ha, b, hb, -, rfl⟩ := value?_div.mp h
  obtain rfl : ((2 : ℤ) : K) = b := by simpa using hb
  exact ⟨a, ha, by norm_num⟩

theorem value?_logOfAbs {e : Expr} (h : M.value? e.logOfAbs = some v) :
    ∃ z a, M.value? e = some z ∧ M.call? .abs [z] = some a ∧ M.call? .ln [a] = some v := by
  obtain ⟨a, ha, hl⟩ := value?_ln.mp h
  obtain ⟨z, hz, hza⟩ := value?_apply.mp ha
  exact ⟨z, a, hz, hza, hl⟩

theorem D_ratCast [CharZero K] (r : Rat) : M.D (r : K) = 0 := by
  rw [Rat.cast_def, M.D.leibniz_div, M.D.map_intCast, M.D.map_natCast]
  simp

theorem D_half (a : K) : M.D (a / 2) = M.D a / 2 := by
  have constant : M.D (2 : K) = 0 := by exact_mod_cast M.D.map_natCast 2
  rw [M.D.leibniz_div_const a 2 constant, smul_eq_mul, inv_mul_eq_div]

/-- The slope of the logarithm of an absolute value, wherever it has a value. -/
theorem D_logOfAbs (laws : M.Elementary x) {e : Expr} (h : M.value? e.logOfAbs = some v) :
    ∃ z, M.value? e = some z ∧ z ≠ 0 ∧ M.D v = M.D z / z := by
  obtain ⟨z, a, hz, ha, hl⟩ := value?_logOfAbs h
  exact ⟨z, hz, laws.D_ln_abs ha hl⟩

theorem value?_negate_logOfAbs {e : Expr} (h : M.value? e.logOfAbs.negate = some v) :
    ∃ l, M.value? e.logOfAbs = some l ∧ -l = v := by
  have shape : e.logOfAbs.negate = .product [.ofInt (-1), e.logOfAbs] := rfl
  rw [shape] at h
  obtain ⟨m, hm, l, hl, rfl⟩ := value?_times.mp h
  obtain rfl : ((-1 : ℤ) : K) = m := by simpa using hm
  exact ⟨l, hl, by push_cast; ring⟩

theorem D_ln (laws : M.Elementary x) (h : M.call? .ln [u] = some v) : M.D v = M.D u / u := by
  have slope : M.slope? u .ln = some (1 / u) := quotient?_eq_some.mpr ⟨laws.ln_ne_zero h, rfl⟩
  rw [laws.call_chain h slope, one_div_mul_eq_div]

/-! ## Values of trees in the symbol -/

theorem value?_symbol_squared (laws : M.Elementary x) :
    M.value? (Expr.ident x).squared = some v ↔ M.ident x ^ 2 = v := by
  rw [value?_squared laws.toLawful]
  constructor
  · rintro ⟨u, hu, rfl, -⟩
    rw [Option.some.inj ((value?_ident x).symm.trans hu)]
  · rintro rfl
    exact ⟨_, value?_ident x, rfl, laws.square_power _⟩

theorem value?_oneMinusSquare (laws : M.Elementary x) :
    M.value? (.sub .one (Expr.ident x).squared) = some v ↔ 1 - M.ident x ^ 2 = v := by
  simp [value?_symbol_squared laws]

theorem value?_squareMinusOne (laws : M.Elementary x) :
    M.value? (.sub (Expr.ident x).squared .one) = some v ↔ M.ident x ^ 2 - 1 = v := by
  simp [value?_symbol_squared laws]

theorem value?_squarePlusOne (laws : M.Elementary x) :
    M.value? (.sum [(Expr.ident x).squared, .one]) = some v ↔ M.ident x ^ 2 + 1 = v := by
  simp [value?_symbol_squared laws]

theorem value?_onePlusSquare (laws : M.Elementary x) :
    M.value? (.sum [.one, (Expr.ident x).squared]) = some v ↔ 1 + M.ident x ^ 2 = v := by
  simp [value?_symbol_squared laws]

/-- The value of the symbol times a call of it. -/
theorem value?_byX {f : NamedFunction}
    (h : M.value? (.product [.ident x, .apply f (.ident x)]) = some v)
    (hw : M.call? f [M.ident x] = some w) : M.ident x * w = v := by
  obtain ⟨p, hp, q, hq, rfl⟩ := value?_times.mp h
  rw [value?_apply_ident, hw, Option.some.injEq] at hq
  rw [Option.some.inj ((value?_ident x).symm.trans hp), hq]

/-! ## Circular and hyperbolic functions at once -/

section Ratios

variable (family : Ratio → NamedFunction) {s : K} (laws : M.Elementary x)
  (ratios : ∀ {q v}, M.call? (family q) [M.ident x] = some v →
    ∃ a b, M.RatiosAt family s (M.ident x) a b)
include laws ratios

theorem derives_cosine :
    M.Derives (.apply (family .sin) (.ident x)) (.apply (family .cos) (.ident x)) := by
  intro v w hv hw
  obtain ⟨a, b, h⟩ := ratios (value?_apply_ident.mp hv)
  rw [value?_apply_ident, h.reads.sin_iff] at hv
  rw [value?_apply_ident, h.reads.cos_iff] at hw
  rw [← hv, ← hw, h.slope_sine, laws.ident_self, mul_one]

theorem derives_cotangent :
    M.Derives (Expr.apply (family .sin) (.ident x)).logOfAbs (.apply (family .cot) (.ident x)) := by
  intro v w hv hw
  obtain ⟨z, hz, -, slope⟩ := D_logOfAbs laws hv
  obtain ⟨a, b, h⟩ := ratios (value?_apply_ident.mp hz)
  rw [value?_apply_ident, h.reads.sin_iff] at hz
  rw [value?_apply_ident, h.reads.cot_iff] at hw
  rw [slope, ← hz, ← hw.2, h.slope_sine, laws.ident_self, mul_one]

theorem derives_secantSquared :
    M.Derives (.apply (family .tan) (.ident x))
      (.pow (.apply (family .sec) (.ident x)) (.ofInt 2)) := by
  intro v w hv hw
  obtain ⟨a, b, h⟩ := ratios (value?_apply_ident.mp hv)
  obtain ⟨c, hc, square, -⟩ := (value?_squared laws.toLawful).mp hw
  rw [value?_apply_ident, h.reads.tan_iff] at hv
  rw [value?_apply_ident, h.reads.sec_iff] at hc
  rw [← square, ← hc.2, ← hv.2, h.tan hv.1, laws.ident_self, mul_one]

theorem derives_cosecantSquared :
    M.Derives (Expr.apply (family .cot) (.ident x)).negate
      (.pow (.apply (family .csc) (.ident x)) (.ofInt 2)) := by
  intro v w hv hw
  obtain ⟨z, hz, rfl⟩ := value?_negate_apply_ident.mp hv
  obtain ⟨a, b, h⟩ := ratios hz
  obtain ⟨c, hc, square, -⟩ := (value?_squared laws.toLawful).mp hw
  rw [h.reads.cot_iff] at hz
  rw [value?_apply_ident, h.reads.csc_iff] at hc
  rw [← square, ← hc.2, ← hz.2, map_neg, h.cot hz.1, laws.ident_self, mul_one, neg_neg]

theorem derives_cosecantCotangent :
    M.Derives (Expr.apply (family .csc) (.ident x)).negate
      (.product [.apply (family .csc) (.ident x), .apply (family .cot) (.ident x)]) := by
  intro v w hv hw
  obtain ⟨z, hz, rfl⟩ := value?_negate_apply_ident.mp hv
  obtain ⟨a, b, h⟩ := ratios hz
  obtain ⟨p, hp, q, hq, rfl⟩ := value?_times.mp hw
  rw [h.reads.csc_iff] at hz
  rw [value?_apply_ident, h.reads.csc_iff] at hp
  rw [value?_apply_ident, h.reads.cot_iff] at hq
  rw [← hp.2, ← hq.2, ← hz.2, map_neg, h.csc hz.1, laws.ident_self, mul_one, neg_neg]

/-- The secant times the tangent is a slope of the secant, up to the sign. -/
theorem D_secant {p q z : K} (hz : M.call? (family .sec) [M.ident x] = some z)
    (hp : M.call? (family .sec) [M.ident x] = some p)
    (hq : M.call? (family .tan) [M.ident x] = some q) : M.D z = s * (p * q) := by
  obtain ⟨a, b, h⟩ := ratios hz
  rw [h.reads.sec_iff] at hz hp
  rw [h.reads.tan_iff] at hq
  rw [← hp.2, ← hq.2, ← hz.2, h.sec hz.1, laws.ident_self, mul_one]

end Ratios

section Calls

variable [CharZero K] (laws : M.Elementary x)
include laws

/-! ## Circular and hyperbolic functions -/

theorem derives_circular {q : Ratio}
    (found : Expr.integralOfCall? (.ident x) (.circular q) = some F) :
    M.Derives F (.apply (.circular q) (.ident x)) := by
  have slope := laws.ident_self
  cases q <;> cases found
  case cos => exact derives_cosine .circular laws laws.circularAt
  case cot => exact derives_cotangent .circular laws laws.circularAt
  case sin =>
    intro v w hv hw
    obtain ⟨z, hz, rfl⟩ := value?_negate_apply_ident.mp hv
    obtain ⟨a, b, h⟩ := laws.circularAt hz
    rw [h.reads.cos_iff] at hz
    rw [value?_apply_ident, h.reads.sin_iff] at hw
    rw [← hz, ← hw, map_neg, h.slope_cosine, slope]
    ring
  case tan =>
    intro v w hv hw
    obtain ⟨l, hl, rfl⟩ := value?_negate_logOfAbs hv
    obtain ⟨z, hz, -, logarithm⟩ := D_logOfAbs laws hl
    obtain ⟨a, b, h⟩ := laws.circularAt (value?_apply_ident.mp hz)
    rw [value?_apply_ident, h.reads.cos_iff] at hz
    rw [value?_apply_ident, h.reads.tan_iff] at hw
    rw [map_neg, logarithm, ← hz, ← hw.2, h.slope_cosine, slope]
    ring
  case sec =>
    intro v w hv hw
    obtain ⟨z, hz, nonzero, logarithm⟩ := D_logOfAbs laws hv
    obtain ⟨p, hp, q, hq, rfl⟩ := value?_plus.mp hz
    obtain ⟨a, b, h⟩ := laws.circularAt (value?_apply_ident.mp hp)
    rw [value?_apply_ident, h.reads.sec_iff] at hp hw
    rw [value?_apply_ident, h.reads.tan_iff] at hq
    obtain ⟨⟨cosine, rfl⟩, -, rfl⟩ := And.intro hp hq
    rw [logarithm, map_add, h.sec cosine, h.tan cosine, slope, eq_div_iff nonzero, ← hw.2]
    ring
  case csc =>
    intro v w hv hw
    obtain ⟨l, hl, rfl⟩ := value?_negate_logOfAbs hv
    obtain ⟨z, hz, nonzero, logarithm⟩ := D_logOfAbs laws hl
    obtain ⟨p, hp, q, hq, rfl⟩ := value?_plus.mp hz
    obtain ⟨a, b, h⟩ := laws.circularAt (value?_apply_ident.mp hp)
    rw [value?_apply_ident, h.reads.csc_iff] at hp hw
    rw [value?_apply_ident, h.reads.cot_iff] at hq
    obtain ⟨⟨sine, rfl⟩, -, rfl⟩ := And.intro hp hq
    rw [map_neg, logarithm, map_add, h.csc sine, h.cot sine, slope, ← neg_div,
      eq_div_iff nonzero, ← hw.2]
    ring

theorem derives_hyperbolic {q : Ratio}
    (found : Expr.integralOfCall? (.ident x) (.hyperbolic q) = some F) :
    M.Derives F (.apply (.hyperbolic q) (.ident x)) := by
  have slope := laws.ident_self
  cases q <;> cases found
  case cos => exact derives_cosine .hyperbolic laws laws.hyperbolicAt
  case cot => exact derives_cotangent .hyperbolic laws laws.hyperbolicAt
  case sin =>
    intro v w hv hw
    obtain ⟨a, b, h⟩ := laws.hyperbolicAt (value?_apply_ident.mp hv)
    rw [value?_apply_ident, h.reads.cos_iff] at hv
    rw [value?_apply_ident, h.reads.sin_iff] at hw
    rw [← hv, ← hw, h.slope_cosine, slope]
    ring
  case tan =>
    intro v w hv hw
    obtain ⟨z, hz, hl⟩ := value?_ln.mp hv
    obtain ⟨a, b, h⟩ := laws.hyperbolicAt (value?_apply_ident.mp hz)
    rw [value?_apply_ident, h.reads.cos_iff] at hz
    rw [value?_apply_ident, h.reads.tan_iff] at hw
    rw [D_ln laws hl, ← hz, ← hw.2, h.slope_cosine, slope]
    ring
  case sec =>
    intro v w hv hw
    obtain ⟨z, hz, hv⟩ := value?_apply.mp hv
    obtain ⟨a, b, h⟩ := laws.hyperbolicAt (value?_apply_ident.mp hz)
    rw [value?_apply_ident, h.reads.sin_iff] at hz
    rw [value?_apply_ident, h.reads.sec_iff] at hw
    subst hz
    obtain ⟨cosine, rfl⟩ := hw
    have square : 1 + a ^ 2 = b ^ 2 := by linear_combination -h.unit
    have inverse : M.slope? a (.arcCircular .tan) = some (1 / (1 + a ^ 2)) :=
      quotient?_eq_some.mpr ⟨by rw [square]; exact pow_ne_zero 2 cosine, rfl⟩
    rw [laws.call_chain hv inverse, square, h.slope_sine, slope]
    field_simp
  case csc =>
    intro v w hv hw
    obtain ⟨t, ht, nonzero, logarithm⟩ := D_logOfAbs laws hv
    obtain ⟨z, hz, ht⟩ := value?_apply.mp ht
    obtain ⟨y, hy, rfl⟩ := value?_half hz
    obtain rfl : M.ident x = y := by simpa using hy
    obtain ⟨a, b, h⟩ := laws.hyperbolicAt ht
    obtain ⟨cosine, rfl⟩ := h.reads.tan_iff.mp ht
    -- The argument is twice its half.
    have double := laws.hyperbolic.add h.reads h.reads
    rw [add_halves] at double
    rw [value?_apply_ident, double.csc_iff] at hw
    obtain ⟨-, rfl⟩ := hw
    rw [logarithm, h.tan cosine, D_half, slope]
    have sine : a ≠ 0 := (div_ne_zero_iff.mp nonzero).1
    field_simp
    ring

/-! ## Inverse functions -/

/-- A root of `k + m * x ^ 2` is not zero if `k` and `m` are not. -/
theorem root_ne_zero {r k m : K} (root : r ^ 2 = k + m * M.ident x ^ 2) (hk : k ≠ 0) (hm : m ≠ 0)
    (constant : M.D k = 0 ∧ M.D m = 0) : r ≠ 0 := by
  rintro rfl
  rw [zero_pow two_ne_zero] at root
  have slope : M.D (k + m * M.ident x ^ 2) = m * (2 * M.ident x) := by
    rw [map_add, M.D.leibniz, constant.1, constant.2, D_pow, laws.ident_self]
    simp
  rw [← root, map_zero] at slope
  have zero : M.ident x = 0 := by simpa [hm] using slope.symm
  rw [zero, zero_pow two_ne_zero, mul_zero, add_zero] at root
  exact hk root.symm

/-- The product of the symbol and an inverse function, and a multiple of the root that the slope of
the function is divided by. -/
theorem D_byX_add_root {f : NamedFunction} {r k m n c : K} (hw : M.call? f [M.ident x] = some w)
    (hr : M.call? .sqrt [k + m * M.ident x ^ 2] = some r) (hk : k ≠ 0) (hm : m ≠ 0)
    (constant : M.D k = 0 ∧ M.D m = 0 ∧ M.D c = 0)
    (slope : r ≠ 0 → M.slope? (M.ident x) f = some (n / r)) (cancels : n + c * m = 0) :
    M.D (M.ident x * w + c * r) = w := by
  have nonzero := root_ne_zero laws (laws.sqrt hr).1 hk hm ⟨constant.1, constant.2.1⟩
  have root : M.D r = m * M.ident x / r := by
    rw [laws.D_sqrt hr (mul_ne_zero two_ne_zero nonzero), map_add, M.D.leibniz, constant.1,
      constant.2.1, D_pow, laws.ident_self]
    simp only [smul_eq_mul, mul_zero, add_zero, zero_add]
    field_simp
    norm_num
  rw [map_add, M.D.leibniz, M.D.leibniz, constant.2.2, laws.call_chain hw (slope nonzero), root,
    laws.ident_self]
  simp only [smul_eq_mul, mul_zero, add_zero]
  field_simp
  linear_combination M.ident x * cancels

theorem derives_arcCircular {q : Ratio}
    (found : Expr.integralOfCall? (.ident x) (.arcCircular q) = some F) :
    M.Derives F (.apply (.arcCircular q) (.ident x)) := by
  have radicand : 1 - M.ident x ^ 2 = 1 + -1 * M.ident x ^ 2 := by ring
  have constants : M.D (1 : K) = 0 ∧ M.D (-1 : K) = 0 := by simp
  cases q <;> cases found
  case sin =>
    intro v w hv hw
    rw [value?_apply_ident] at hw
    obtain ⟨p, hp, r, hr, rfl⟩ := value?_plus.mp hv
    obtain ⟨z, hz, hr⟩ := value?_apply.mp hr
    obtain rfl := (value?_oneMinusSquare laws).mp hz
    have slope (nonzero : r ≠ 0) : M.slope? (M.ident x) (.arcCircular .sin) = some (1 / r) := by
      simp [slope?, hr, nonzero]
    rw [← value?_byX hp hw, ← one_mul r]
    exact (D_byX_add_root laws hw (radicand ▸ hr) one_ne_zero (by norm_num)
      ⟨constants.1, constants.2, constants.1⟩ slope (by ring)).symm
  case cos =>
    intro v w hv hw
    rw [value?_apply_ident] at hw
    obtain ⟨p, hp, r, hr, rfl⟩ := value?_sub.mp hv
    obtain ⟨z, hz, hr⟩ := value?_apply.mp hr
    obtain rfl := (value?_oneMinusSquare laws).mp hz
    have slope (nonzero : r ≠ 0) : M.slope? (M.ident x) (.arcCircular .cos) = some (-1 / r) := by
      simp [slope?, hr, nonzero]
    rw [← value?_byX hp hw, sub_eq_add_neg, ← neg_one_mul r]
    exact (D_byX_add_root laws hw (radicand ▸ hr) one_ne_zero (by norm_num)
      ⟨constants.1, constants.2, constants.2⟩ slope (by ring)).symm
  case tan =>
    intro v w hv hw
    rw [value?_apply_ident] at hw
    obtain ⟨p, hp, q, hq, rfl⟩ := value?_sub.mp hv
    obtain ⟨l, hl, rfl⟩ := value?_half hq
    obtain ⟨z, hz, hl⟩ := value?_ln.mp hl
    obtain rfl := (value?_onePlusSquare laws).mp hz
    have nonzero := laws.ln_ne_zero hl
    have slope : M.slope? (M.ident x) (.arcCircular .tan) = some (1 / (1 + M.ident x ^ 2)) :=
      quotient?_eq_some.mpr ⟨nonzero, rfl⟩
    rw [← value?_byX hp hw, map_sub, D_half, D_ln laws hl, M.D.leibniz, laws.call_chain hw slope,
      map_add, constants.1, D_pow, laws.ident_self]
    simp only [smul_eq_mul]
    field_simp
    push_cast
    ring

theorem derives_arcHyperbolic {q : Ratio}
    (found : Expr.integralOfCall? (.ident x) (.arcHyperbolic q) = some F) :
    M.Derives F (.apply (.arcHyperbolic q) (.ident x)) := by
  have constants : M.D (1 : K) = 0 ∧ M.D (-1 : K) = 0 := by simp
  cases q <;> cases found
  case sin =>
    intro v w hv hw
    rw [value?_apply_ident] at hw
    obtain ⟨p, hp, r, hr, rfl⟩ := value?_sub.mp hv
    obtain ⟨z, hz, hr⟩ := value?_apply.mp hr
    obtain rfl := (value?_squarePlusOne laws).mp hz
    have radicand : M.ident x ^ 2 + 1 = 1 + 1 * M.ident x ^ 2 := by ring
    have slope (nonzero : r ≠ 0) : M.slope? (M.ident x) (.arcHyperbolic .sin) = some (1 / r) := by
      simp [slope?, hr, nonzero]
    rw [← value?_byX hp hw, sub_eq_add_neg, ← neg_one_mul r]
    exact (D_byX_add_root laws hw (radicand ▸ hr) one_ne_zero one_ne_zero
      ⟨constants.1, constants.1, constants.2⟩ slope (by ring)).symm
  case cos =>
    intro v w hv hw
    rw [value?_apply_ident] at hw
    obtain ⟨p, hp, r, hr, rfl⟩ := value?_sub.mp hv
    obtain ⟨z, hz, hr⟩ := value?_apply.mp hr
    obtain rfl := (value?_squareMinusOne laws).mp hz
    have radicand : M.ident x ^ 2 - 1 = -1 + 1 * M.ident x ^ 2 := by ring
    have slope (nonzero : r ≠ 0) : M.slope? (M.ident x) (.arcHyperbolic .cos) = some (1 / r) := by
      simp [slope?, hr, nonzero]
    rw [← value?_byX hp hw, sub_eq_add_neg, ← neg_one_mul r]
    exact (D_byX_add_root laws hw (radicand ▸ hr) (by norm_num) one_ne_zero
      ⟨constants.2, constants.1, constants.2⟩ slope (by ring)).symm
  case tan =>
    intro v w hv hw
    rw [value?_apply_ident] at hw
    obtain ⟨p, hp, q, hq, rfl⟩ := value?_plus.mp hv
    obtain ⟨l, hl, rfl⟩ := value?_half hq
    obtain ⟨z, hz, hl⟩ := value?_ln.mp hl
    obtain rfl := (value?_oneMinusSquare laws).mp hz
    have nonzero := laws.ln_ne_zero hl
    have slope : M.slope? (M.ident x) (.arcHyperbolic .tan) = some (1 / (1 - M.ident x ^ 2)) :=
      quotient?_eq_some.mpr ⟨nonzero, rfl⟩
    rw [← value?_byX hp hw, map_add, D_half, D_ln laws hl, M.D.leibniz, laws.call_chain hw slope,
      map_sub, constants.1, D_pow, laws.ident_self]
    simp only [smul_eq_mul]
    field_simp
    push_cast
    ring

/-! ## Logarithms, roots, absolute values -/

omit [CharZero K] in
theorem D_byX_ln {l : K} (hl : M.call? .ln [M.ident x] = some l) :
    M.D (M.ident x * l - M.ident x) = l := by
  have nonzero := laws.ln_ne_zero hl
  rw [map_sub, M.D.leibniz, D_ln laws hl, laws.ident_self]
  simp only [smul_eq_mul]
  field_simp
  ring

omit [CharZero K] in
theorem derives_ln (found : Expr.integralOfCall? (.ident x) .ln = some F) :
    M.Derives F (.apply .ln (.ident x)) := by
  cases found
  intro v w hv hw
  rw [value?_apply_ident] at hw
  obtain ⟨p, hp, q, hq, rfl⟩ := value?_sub.mp hv
  obtain rfl : M.ident x = q := by simpa using hq
  rw [← value?_byX hp hw, D_byX_ln laws hw]

omit [CharZero K] in
theorem derives_log (found : Expr.integralOfCall? (.ident x) .log = some F) :
    M.Derives F (.apply .log (.ident x)) := by
  cases found
  intro v w hv hw
  rw [value?_apply_ident] at hw
  obtain ⟨l, t, hl, ht, same⟩ := laws.log_ten hw
  obtain ⟨-, rfl⟩ := quotient?_eq_some.mp same
  obtain ⟨a, ha, b, hb, nonzero, rfl⟩ := value?_div.mp hv
  obtain ⟨p, hp, q, hq, rfl⟩ := value?_sub.mp ha
  obtain rfl : M.ident x = q := by simpa using hq
  obtain ⟨ten, hten, hb⟩ := value?_ln.mp hb
  obtain rfl : (10 : K) = ten := by simpa using hten
  obtain rfl := Option.some.inj (ht.symm.trans hb)
  have constant : M.D t = 0 := by
    have ten : M.D (10 : K) = 0 := by exact_mod_cast M.D.map_natCast 10
    exact laws.call_constant (by simpa using ten) ht
  rw [← value?_byX hp hl, M.D.leibniz_div_const _ t constant, D_byX_ln laws hl, smul_eq_mul,
    inv_mul_eq_div]

theorem derives_sqrt (found : Expr.integralOfCall? (.ident x) .sqrt = some F) :
    M.Derives F (.apply .sqrt (.ident x)) := by
  cases found
  intro v w hv hw
  rw [value?_apply_ident] at hw
  obtain ⟨c, hc, p, hp, rfl⟩ := value?_times.mp hv
  obtain ⟨u, hu, k, hk, hp⟩ := value?_pow.mp hp
  obtain rfl : M.ident x = u := by simpa using hu
  have ratio (r : Rat) {z : K} (h : M.value? (.ofRat r) = some z) : (r : K) = z := by
    have numeral : M.numeral? (.exact r) = some z := (value?_ofNumeral (.exact r)).symm.trans h
    exact (numeral?_exact.mp numeral).2
  obtain rfl := ratio _ hc
  obtain rfl := ratio _ hk
  have lowered : M.power? (M.ident x) (((mkRat 3 2 : Rat) : K) - 1) = some w := by
    rw [← (laws.sqrt hw).2]
    congr 1
    norm_num [Rat.mkRat_eq_div]
  rw [M.D.leibniz, laws.power_rule (D_ratCast _) hp lowered, D_ratCast, laws.ident_self]
  norm_num [Rat.mkRat_eq_div]
  ring

theorem derives_abs (found : Expr.integralOfCall? (.ident x) .abs = some F) :
    M.Derives F (.apply .abs (.ident x)) := by
  cases found
  intro v w hv hw
  rw [value?_apply_ident] at hw
  obtain ⟨p, hp, rfl⟩ := value?_half hv
  obtain ⟨s, hs, value⟩ := laws.abs hw
  have slope : M.slope? (M.ident x) .abs = some s := hs
  rw [← value?_byX hp hw, D_half, M.D.leibniz, laws.call_chain hw slope, laws.ident_self, value]
  simp only [smul_eq_mul]
  field_simp
  ring

omit [CharZero K] in
theorem derives_sgn (found : Expr.integralOfCall? (.ident x) .sgn = some F) :
    M.Derives F (.apply .sgn (.ident x)) := by
  cases found
  intro v w hv hw
  rw [value?_apply_ident] at hv hw
  have slope : M.slope? (M.ident x) .abs = some w := hw
  rw [laws.call_chain hv slope, laws.ident_self, mul_one]

theorem derives_tabled_call {f : NamedFunction}
    (found : Expr.integralOfCall? (.ident x) f = some F) :
    M.Derives F (.apply f (.ident x)) := by
  cases f with
  | circular q => exact derives_circular laws found
  | arcCircular q => exact derives_arcCircular laws found
  | hyperbolic q => exact derives_hyperbolic laws found
  | arcHyperbolic q => exact derives_arcHyperbolic laws found
  | ln => exact derives_ln laws found
  | log => exact derives_log laws found
  | abs => exact derives_abs laws found
  | sqrt => exact derives_sqrt laws found
  | sgn => exact derives_sgn laws found
  | other name => cases found

/-! ## Squares and products of calls -/

omit [CharZero K] in
theorem derives_square {f : NamedFunction}
    (found : Expr.integralOfSquare? (.ident x) f = some F) :
    M.Derives F (.pow (.apply f (.ident x)) (.ofInt 2)) := by
  unfold Expr.integralOfSquare? at found
  split at found <;> cases found
  case h_1 => exact derives_secantSquared .circular laws laws.circularAt
  case h_2 => exact derives_cosecantSquared .circular laws laws.circularAt
  case h_3 => exact derives_secantSquared .hyperbolic laws laws.hyperbolicAt
  case h_4 => exact derives_cosecantSquared .hyperbolic laws laws.hyperbolicAt

theorem derives_pair {f g : NamedFunction}
    (found : Expr.integralOfPair? (.ident x) f g = some F) :
    M.Derives F (.product [.apply f (.ident x), .apply g (.ident x)]) := by
  unfold Expr.integralOfPair? at found
  split at found <;> cases found
  case h_1 =>
    intro v w hv hw
    obtain ⟨p, hp, q, hq, rfl⟩ := value?_times.mp hw
    rw [value?_apply_ident] at hv hp hq
    rw [D_secant .circular laws laws.circularAt hv hp hq, one_mul]
  case h_2 => exact derives_cosecantCotangent .circular laws laws.circularAt
  case h_3 =>
    intro v w hv hw
    obtain ⟨z, hz, rfl⟩ := value?_negate_apply_ident.mp hv
    obtain ⟨p, hp, q, hq, rfl⟩ := value?_times.mp hw
    rw [value?_apply_ident] at hp hq
    rw [map_neg, D_secant .hyperbolic laws laws.hyperbolicAt hz hp hq, neg_one_mul, neg_neg]
  case h_4 => exact derives_cosecantCotangent .hyperbolic laws laws.hyperbolicAt
  case h_5 =>
    intro v w hv hw
    obtain ⟨a, ha, rfl⟩ := value?_half hv
    obtain ⟨b, hb, rfl, -⟩ := (value?_squared laws.toLawful).mp ha
    obtain ⟨p, hp, q, hq, rfl⟩ := value?_times.mp hw
    rw [value?_apply_ident] at hb hp hq
    obtain ⟨a, b, h⟩ := laws.circularAt hb
    rw [h.reads.sin_iff] at hb hp
    rw [h.reads.cos_iff] at hq
    rw [D_half, D_pow, ← hb, ← hp, ← hq, h.slope_sine, laws.ident_self]
    push_cast
    ring

end Calls

end DifferentialReading

end SymbolicAlgebra
