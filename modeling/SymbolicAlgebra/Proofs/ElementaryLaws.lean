import SymbolicAlgebra.Proofs.CallIdentities
import SymbolicAlgebra.Proofs.DerivativeValue
import SymbolicAlgebra.Proofs.DifferentialTerms

/-! The identities of the elementary functions in a field with a derivation, on top of the rules of
calculus, and the slopes of the six ratios of a sine and a cosine. -/
namespace SymbolicAlgebra

namespace DifferentialReading

variable {K : Type*} [Field K]

/-! ## Circular and hyperbolic functions -/

/-- The six functions at `u` are the ratios of a sine `a` and a cosine `b`. -/
def ReadsRatios (M : DifferentialReading K) (family : Ratio → NamedFunction) (u a b : K) : Prop :=
  ∀ q, M.call? (family q) [u] = Reading.ratioOf (fun _ => a) (fun _ => b) q u

/-- The identities of the circular functions, with `s = 1`, and of the hyperbolic ones, with
`s = -1`. -/
structure RatioLaws (M : DifferentialReading K) (family : Ratio → NamedFunction) (s : K) : Prop where
  ratios {u v : K} {q : Ratio} : M.call? (family q) [u] = some v → ∃ a b, M.ReadsRatios family u a b
  unit {u a b : K} : M.ReadsRatios family u a b → b ^ 2 + s * a ^ 2 = 1
  add {u v a b c d : K} : M.ReadsRatios family u a b → M.ReadsRatios family v c d →
    M.ReadsRatios family (u + v) (a * d + b * c) (b * d - s * (a * c))
  neg {u a b : K} : M.ReadsRatios family u a b → M.ReadsRatios family (-u) (-a) b

/-- The rules of calculus and the identities of the elementary functions. -/
structure Elementary (M : DifferentialReading K) (x : String) : Prop extends M.Lawful x where
  exact : M.Exact
  natural_power (b : K) (n : ℕ) : M.power? b n = some (b ^ n)
  opposite_power {b c v : K} : M.power? b c = some v → v ≠ 0 → M.power? b (-c) = some v⁻¹
  power_of_zero {c v : K} : c ≠ 0 → M.power? 0 c = some v → v = 0
  circular : M.RatioLaws .circular 1
  hyperbolic : M.RatioLaws .hyperbolic (-1)
  ln_ne_zero {u v : K} : M.call? .ln [u] = some v → u ≠ 0
  abs {u v : K} : M.call? .abs [u] = some v → ∃ s, M.call? .sgn [u] = some s ∧ v = s * u
  sqrt {u v : K} : M.call? .sqrt [u] = some v → v ^ 2 = u ∧ M.power? u (1 / 2) = some v

/-- Simplified expressions have the values that they had. -/
def KeepsValues (M : DifferentialReading K) (simplify : Expr → Expr) : Prop :=
  ∀ e v, M.value? e = some v → M.value? (simplify e) = some v

variable {M : DifferentialReading K} {x : String} {family : Ratio → NamedFunction} {s u v w : K}

namespace ReadsRatios

variable {a b : K} (h : M.ReadsRatios family u a b)
include h

theorem sin : M.call? (family .sin) [u] = some a := h .sin

theorem cos : M.call? (family .cos) [u] = some b := h .cos

theorem tan_iff : M.call? (family .tan) [u] = some v ↔ b ≠ 0 ∧ a / b = v := by
  rw [h .tan, Reading.ratioOf, quotient?_eq_some]

theorem cot_iff : M.call? (family .cot) [u] = some v ↔ a ≠ 0 ∧ b / a = v := by
  rw [h .cot, Reading.ratioOf, quotient?_eq_some]

theorem sec_iff : M.call? (family .sec) [u] = some v ↔ b ≠ 0 ∧ 1 / b = v := by
  rw [h .sec, Reading.ratioOf, quotient?_eq_some]

theorem csc_iff : M.call? (family .csc) [u] = some v ↔ a ≠ 0 ∧ 1 / a = v := by
  rw [h .csc, Reading.ratioOf, quotient?_eq_some]

theorem sin_iff : M.call? (family .sin) [u] = some v ↔ a = v := by
  rw [h.sin, Option.some.injEq]

theorem cos_iff : M.call? (family .cos) [u] = some v ↔ b = v := by
  rw [h.cos, Option.some.injEq]

end ReadsRatios

/-! ## Slopes -/

/-- A sine `a` and a cosine `b` at `u`, with their slopes. -/
structure RatiosAt (M : DifferentialReading K) (family : Ratio → NamedFunction) (s u a b : K) :
    Prop where
  reads : M.ReadsRatios family u a b
  unit : b ^ 2 + s * a ^ 2 = 1
  slope_sine : M.D a = b * M.D u
  slope_cosine : M.D b = -s * a * M.D u

theorem Lawful.circularAt (laws : M.Lawful x) (ratios : M.RatioLaws .circular 1) {a b : K}
    (h : M.ReadsRatios .circular u a b) : M.RatiosAt .circular 1 u a b where
  reads := h
  unit := ratios.unit h
  slope_sine := laws.call_chain h.sin h.cos
  slope_cosine := by
    have slope : M.slope? u .cos = some (-a) := by simp [slope?, h.sin]
    rw [laws.call_chain h.cos slope, neg_one_mul]

theorem Lawful.hyperbolicAt (laws : M.Lawful x) (ratios : M.RatioLaws .hyperbolic (-1)) {a b : K}
    (h : M.ReadsRatios .hyperbolic u a b) : M.RatiosAt .hyperbolic (-1) u a b where
  reads := h
  unit := ratios.unit h
  slope_sine := laws.call_chain h.sin h.cos
  slope_cosine := by
    rw [laws.call_chain h.cos h.sin, neg_neg, one_mul]

namespace RatiosAt

variable {a b : K} (h : M.RatiosAt family s u a b)
include h

theorem tan (nonzero : b ≠ 0) : M.D (a / b) = (1 / b) ^ 2 * M.D u := by
  rw [M.D.leibniz_div, h.slope_sine, h.slope_cosine, smul_eq_mul, smul_eq_mul, smul_eq_mul]
  field_simp
  linear_combination M.D u * h.unit

theorem cot (nonzero : a ≠ 0) : M.D (b / a) = -(1 / a) ^ 2 * M.D u := by
  rw [M.D.leibniz_div, h.slope_sine, h.slope_cosine, smul_eq_mul, smul_eq_mul, smul_eq_mul]
  field_simp
  linear_combination -M.D u * h.unit

theorem sec (nonzero : b ≠ 0) : M.D (1 / b) = s * (1 / b * (a / b)) * M.D u := by
  rw [M.D.leibniz_div, h.slope_cosine, M.D.map_one_eq_zero, smul_zero, smul_eq_mul, smul_eq_mul]
  field_simp
  ring

theorem csc (nonzero : a ≠ 0) : M.D (1 / a) = -(1 / a * (b / a)) * M.D u := by
  rw [M.D.leibniz_div, h.slope_sine, M.D.map_one_eq_zero, smul_zero, smul_eq_mul, smul_eq_mul]
  field_simp
  ring

theorem tan_sq (nonzero : b ≠ 0) : (1 / b) ^ 2 = 1 + s * (a / b) ^ 2 := by
  field_simp
  linear_combination -h.unit

theorem cot_sq (nonzero : a ≠ 0) : (1 / a) ^ 2 = (b / a) ^ 2 + s := by
  field_simp
  linear_combination -h.unit

end RatiosAt

namespace Elementary

variable (laws : M.Elementary x)
include laws

theorem circularAt {q : Ratio} (h : M.call? (.circular q) [u] = some v) :
    ∃ a b, M.RatiosAt .circular 1 u a b := by
  obtain ⟨a, b, reads⟩ := laws.circular.ratios h
  exact ⟨a, b, laws.toLawful.circularAt laws.circular reads⟩

theorem hyperbolicAt {q : Ratio} (h : M.call? (.hyperbolic q) [u] = some v) :
    ∃ a b, M.RatiosAt .hyperbolic (-1) u a b := by
  obtain ⟨a, b, reads⟩ := laws.hyperbolic.ratios h
  exact ⟨a, b, laws.toLawful.hyperbolicAt laws.hyperbolic reads⟩

/-- The slope of the logarithm of an absolute value. -/
theorem D_ln_abs {a l : K} (ha : M.call? .abs [u] = some a) (hl : M.call? .ln [a] = some l) :
    u ≠ 0 ∧ M.D l = M.D u / u := by
  obtain ⟨s, hs, rfl⟩ := laws.abs ha
  have nonzero := laws.ln_ne_zero hl
  obtain ⟨sign, argument⟩ := mul_ne_zero_iff.mp nonzero
  have slope : M.slope? (s * u) .ln = some (1 / (s * u)) := quotient?_eq_some.mpr ⟨nonzero, rfl⟩
  refine ⟨argument, ?_⟩
  rw [laws.call_chain hl slope, laws.call_chain ha hs]
  field_simp

/-- The slope of a square root, other than at zero. -/
theorem D_sqrt (h : M.call? .sqrt [u] = some v) (nonzero : 2 * v ≠ 0) :
    M.D v = M.D u / (2 * v) := by
  have slope : M.slope? u .sqrt = some (1 / (2 * v)) := by simp [slope?, h, nonzero]
  rw [laws.call_chain h slope, one_div_mul_eq_div]

theorem square_power (u : K) : M.power? u 2 = some (u ^ 2) := by
  exact_mod_cast laws.natural_power u 2

end Elementary

end DifferentialReading

end SymbolicAlgebra
