import Mathlib.Data.Rat.Cast.Lemmas
import SymbolicAlgebra.Calculus.ChangeOfVariable
import SymbolicAlgebra.Proofs.DerivativeValue
import SymbolicAlgebra.Proofs.Multiples

/-! The values of terms in a field with a derivation: opposites, products without their ones, the
split of a product in two, and terms as multiples. Fractions have values only where their
denominators are not zero in the field. -/
namespace SymbolicAlgebra

namespace DifferentialReading

variable {K : Type*} [Field K] {M : DifferentialReading K} {v w : K}

/-! ## Products -/

theorem value?_product_eq (xs : List Expr) :
    M.value? (.product xs) = M.value? (.node .multiply xs) := by
  ext v
  simp [operate?]

theorem value?_multiply_nil : M.value? (.node .multiply []) = some v ↔ 1 = v := by
  simp [operate?]

theorem value?_multiply_cons {t : Expr} {ts : List Expr} :
    M.value? (.node .multiply (t :: ts)) = some v ↔
      ∃ p, M.value? t = some p ∧ ∃ q, M.value? (.node .multiply ts) = some q ∧ p * q = v := by
  simp [operate?]

theorem value?_multiply_append {ts ss : List Expr} :
    M.value? (.node .multiply (ts ++ ss)) = some v ↔
      ∃ p, M.value? (.node .multiply ts) = some p ∧
        ∃ q, M.value? (.node .multiply ss) = some q ∧ p * q = v := by
  induction ts generalizing v with
  | nil => simp [operate?]
  | cons t ts ih =>
    rw [List.cons_append, value?_multiply_cons]
    constructor
    · rintro ⟨a, ha, _, rest, rfl⟩
      obtain ⟨p, hp, q, hq, rfl⟩ := ih.mp rest
      exact ⟨a * p, value?_multiply_cons.mpr ⟨a, ha, p, hp, rfl⟩, q, hq, mul_assoc a p q⟩
    · rintro ⟨_, first, q, hq, rfl⟩
      obtain ⟨a, ha, p, hp, rfl⟩ := value?_multiply_cons.mp first
      exact ⟨a, ha, p * q, ih.mpr ⟨p, hp, q, hq, rfl⟩, (mul_assoc a p q).symm⟩

theorem value?_factors (e : Expr) : M.value? (.node .multiply e.factors) = M.value? e := by
  unfold Expr.factors
  split
  · rfl
  · ext v
    simp [operate?]

/-- Factors may be told apart by any test. -/
theorem value?_split (p : Expr → Bool) {ts : List Expr}
    (h : M.value? (.node .multiply ts) = some v) :
    ∃ a b, M.value? (.node .multiply (ts.filter p)) = some a ∧
      M.value? (.node .multiply (ts.filter fun t => !p t)) = some b ∧ a * b = v := by
  induction ts generalizing v with
  | nil => exact ⟨1, v, value?_multiply_nil.mpr rfl, h, one_mul v⟩
  | cons t ts ih =>
    obtain ⟨c, hc, q, hq, rfl⟩ := value?_multiply_cons.mp h
    obtain ⟨a, b, ha, hb, rfl⟩ := ih hq
    cases side : p t with
    | true =>
      rw [List.filter_cons_of_pos side, List.filter_cons_of_neg (by simp [side])]
      exact ⟨c * a, b, value?_multiply_cons.mpr ⟨c, hc, a, ha, rfl⟩, hb, mul_assoc c a b⟩
    | false =>
      rw [List.filter_cons_of_neg (by simp [side]), List.filter_cons_of_pos (by simp [side])]
      exact ⟨a, c * b, ha, value?_multiply_cons.mpr ⟨c, hc, b, hb, rfl⟩, mul_left_comm a c b⟩

theorem value?_freeAndBound {x : String} {e : Expr} (h : M.value? e = some v) :
    ∃ a b, M.value? (freeAndBound x e).1 = some a ∧ M.value? (freeAndBound x e).2 = some b ∧
      a * b = v := by
  obtain ⟨b, a, hb, ha, rfl⟩ := value?_split (fun f => f.mentions x) ((value?_factors e).trans h)
  rw [freeAndBound, List.partition_eq_filter_filter]
  exact ⟨a, b, (value?_product_eq _).trans ha, (value?_product_eq _).trans hb, mul_comm a b⟩

/-! ## Numerals -/

/-- Numerals are read as what they are called: an opposite as the opposite, zero as zero and one as
one. -/
structure ReadsNumerals (M : DifferentialReading K) : Prop where
  neg {n : Numeral} {v : K} : M.numeral? n = some v → M.numeral? n.neg = some (-v)
  zero {n : Numeral} {v : K} : n.isZero → M.numeral? n = some v → v = 0
  one {n : Numeral} {v : K} : n.isOne → M.numeral? n = some v → v = 1

/-- No float has a value, so that whatever has one holds exact numerals only. -/
def Exact (M : DifferentialReading K) : Prop := ∀ f, M.float? f = none

theorem value?_number (n : Numeral) : M.value? (.number n) = M.numeral? n := by
  rw [value?]

theorem numeral?_exact {r : Rat} :
    M.numeral? (.exact r) = some v ↔ (r.den : K) ≠ 0 ∧ (r : K) = v := by
  rw [numeral?, quotient?_eq_some, Rat.cast_def]

theorem Exact.exists_exact (exact : M.Exact) {n : Numeral} (h : M.numeral? n = some v) :
    ∃ r, n = .exact r ∧ (r.den : K) ≠ 0 ∧ (r : K) = v := by
  cases n with
  | exact r => exact ⟨r, rfl, numeral?_exact.mp h⟩
  | float f => rw [numeral?, exact f] at h; cases h
  | nan => cases h

theorem numeral?_neg_exact {r : Rat} (h : M.numeral? (.exact r) = some v) :
    M.numeral? (.exact (-r)) = some (-v) := by
  obtain ⟨den, rfl⟩ := numeral?_exact.mp h
  exact numeral?_exact.mpr ⟨den, Rat.cast_neg r⟩

theorem Exact.readsNumerals (exact : M.Exact) : M.ReadsNumerals where
  neg h := by
    obtain ⟨r, rfl, -⟩ := exact.exists_exact h
    exact numeral?_neg_exact h
  zero zero h := by
    obtain ⟨r, rfl, -, rfl⟩ := exact.exists_exact h
    rw [(Numeral.isZero_exact r).mp zero, Rat.cast_zero]
  one one h := by
    obtain ⟨r, rfl, -, rfl⟩ := exact.exists_exact h
    rw [(Numeral.isOne_exact r).mp one, Rat.cast_one]

theorem Exact.mul (exact : M.Exact) {m n : Numeral} (hm : M.numeral? m = some v)
    (hn : M.numeral? n = some w) : M.numeral? (m.mul n) = some (v * w) := by
  obtain ⟨r, rfl, hr, rfl⟩ := exact.exists_exact hm
  obtain ⟨s, rfl, hs, rfl⟩ := exact.exists_exact hn
  refine numeral?_exact.mpr ⟨?_, Rat.cast_mul_of_ne_zero hr hs⟩
  obtain ⟨c, product⟩ := Rat.mul_den_dvd r s
  have whole : ((r.den * s.den : ℕ) : K) ≠ 0 := by simp [hr, hs]
  rw [product, Nat.cast_mul] at whole
  exact left_ne_zero_of_mul whole

theorem Exact.div (exact : M.Exact) {m n : Numeral} (hm : M.numeral? m = some v)
    (hn : M.numeral? n = some w) (nonzero : w ≠ 0) : M.numeral? (m.div n) = some (v / w) := by
  obtain ⟨s, rfl, hs, rfl⟩ := exact.exists_exact hn
  have divisor : s ≠ 0 := by
    rintro rfl
    exact nonzero Rat.cast_zero
  have num : (s.num : K) ≠ 0 := by
    rw [Rat.cast_def] at nonzero
    exact (div_ne_zero_iff.mp nonzero).1
  have inverse : M.numeral? (.exact s⁻¹) = some (s : K)⁻¹ := by
    refine numeral?_exact.mpr ⟨?_, Rat.cast_inv_of_ne_zero num⟩
    rw [Rat.den_inv_of_ne_zero divisor]
    rcases Int.natAbs_eq s.num with same | same
    · rwa [same, Int.cast_natCast] at num
    · rwa [same, Int.cast_neg, Int.cast_natCast, neg_ne_zero] at num
  obtain ⟨r, rfl, -⟩ := exact.exists_exact hm
  have product := exact.mul hm inverse
  rw [div_eq_mul_inv, ← product]
  rw [Numeral.div_exact divisor, div_eq_mul_inv]
  rfl

/-! ## Opposites and products -/

namespace ReadsNumerals

variable (reads : M.ReadsNumerals)
include reads

theorem value?_isZero {e : Expr} (zero : e.isZero) (h : M.value? e = some v) : v = 0 := by
  cases e with
  | number n => exact reads.zero zero ((value?_number n).symm.trans h)
  | complex | ident | call | node => cases zero

theorem value?_isOne {e : Expr} (one : e.isOne) (h : M.value? e = some v) : v = 1 := by
  cases e with
  | number n => exact reads.one one ((value?_number n).symm.trans h)
  | complex | ident | call | node => cases one

theorem value?_negateFactors {ts : List Expr} (h : M.value? (.node .multiply ts) = some v) :
    M.value? (.node .multiply (Expr.negateFactors ts)) = some (-v) := by
  have minus : M.value? (.ofInt (-1)) = some (-1) := by simp
  unfold Expr.negateFactors
  split
  · rename_i n rest
    obtain ⟨p, hp, q, hq, rfl⟩ := value?_multiply_cons.mp h
    have opposite := reads.neg ((value?_number n).symm.trans hp)
    split
    · rename_i one
      obtain same := reads.one one opposite
      rwa [← neg_mul, same, one_mul]
    · exact value?_multiply_cons.mpr
        ⟨-p, (value?_number _).trans opposite, q, hq, neg_mul p q⟩
  · exact value?_multiply_cons.mpr ⟨-1, minus, v, h, neg_one_mul v⟩

theorem value?_negate {e : Expr} (h : M.value? e = some v) : M.value? e.negate = some (-v) := by
  have inFront {e : Expr} {v : K} (h : M.value? e = some v) :
      M.value? (.product [.ofInt (-1), e]) = some (-v) :=
    value?_times.mpr ⟨-1, by simp, v, h, neg_one_mul v⟩
  induction e generalizing v with
  | number n => exact (value?_number _).trans (reads.neg ((value?_number n).symm.trans h))
  | complex z =>
    simp only [Expr.negate, ComplexNumeral.neg, value?, Option.bind_eq_bind,
      Option.bind_eq_some_iff, Option.pure_def, Option.some.injEq] at h ⊢
    obtain ⟨unit, hunit, re, hre, im, him, rfl⟩ := h
    exact ⟨unit, hunit, -re, reads.neg hre, -im, reads.neg him, by ring⟩
  | ident name => exact inFront h
  | call f ts _ => exact inFront h
  | node op ts ih =>
    unfold Expr.negate
    split
    case h_1 same => cases same
    case h_2 same => cases same
    case h_3 factors same =>
      cases same
      exact (value?_product_eq _).trans (reads.value?_negateFactors h)
    case h_4 n d same =>
      cases same
      obtain ⟨p, hp, q, hq, nonzero, rfl⟩ := value?_div.mp h
      exact value?_div.mpr ⟨-p, ih n (by simp) hp, q, hq, nonzero, neg_div q p⟩
    case h_5 => exact inFront h

/-- Ones that are left out do not matter. -/
theorem value?_withoutOnes {ts : List Expr} (h : M.value? (.node .multiply ts) = some v) :
    M.value? (.node .multiply (ts.filter fun t => !t.isOne)) = some v := by
  induction ts generalizing v with
  | nil => exact h
  | cons t ts ih =>
    obtain ⟨p, hp, q, hq, rfl⟩ := value?_multiply_cons.mp h
    cases one : t.isOne with
    | true =>
      rw [List.filter_cons_of_neg (by simp [one]), reads.value?_isOne one hp, one_mul]
      exact ih hq
    | false =>
      rw [List.filter_cons_of_pos (by simp [one])]
      exact value?_multiply_cons.mpr ⟨p, hp, q, ih hq, rfl⟩

theorem value?_mul {a b : Expr} (ha : M.value? a = some v) (hb : M.value? b = some w) :
    M.value? (a.times b) = some (v * w) :=
  (value?_product_eq _).trans <| reads.value?_withoutOnes <|
    value?_multiply_append.mpr
      ⟨v, (value?_factors a).trans ha, w, (value?_factors b).trans hb, rfl⟩

end ReadsNumerals

/-! ## Multiples -/

namespace Exact

variable (exact : M.Exact)
include exact

theorem numeral?_numeralProduct {ts : List Expr} (h : M.value? (.node .multiply ts) = some v) :
    ∃ a b, M.numeral? (Expr.numeralProduct ts) = some a ∧
      M.value? (.node .multiply (ts.filter fun t => !t.isNumber)) = some b ∧ a * b = v := by
  have fold {ts : List Expr} {v : K} (h : M.value? (.node .multiply ts) = some v) {acc : Numeral}
      {c : K} (hc : M.numeral? acc = some c) :
      ∃ a b, M.numeral? ((ts.filterMap Expr.number?).foldl Numeral.mul acc) = some (c * a) ∧
        M.value? (.node .multiply (ts.filter fun t => !t.isNumber)) = some b ∧ a * b = v := by
    induction ts generalizing v acc c with
    | nil => exact ⟨1, v, by simpa using hc, h, one_mul v⟩
    | cons t ts ih =>
      obtain ⟨p, hp, q, hq, rfl⟩ := value?_multiply_cons.mp h
      cases t with
      | number n =>
        obtain ⟨a, b, ha, hb, rfl⟩ := ih hq (exact.mul hc ((value?_number n).symm.trans hp))
        exact ⟨p * a, b, by simpa [Expr.number?, mul_assoc] using ha,
          by simpa [Expr.isNumber] using hb, mul_assoc p a b⟩
      | complex | ident | call | node =>
        obtain ⟨a, b, ha, hb, rfl⟩ := ih hq hc
        refine ⟨a, p * b, ha, ?_, mul_left_comm a p b⟩
        simpa only [List.filter_cons, Expr.isNumber, Bool.not_false, if_true] using
          value?_multiply_cons.mpr ⟨p, hp, b, hb, rfl⟩
  have one : M.numeral? .one = some 1 := (value?_number _).symm.trans value?_one
  obtain ⟨a, b, ha, hb, rfl⟩ := fold h one
  exact ⟨a, b, by simpa [Expr.numeralProduct] using ha, hb, rfl⟩

theorem value?_scaleWhole {c : Numeral} (hc : M.numeral? c = some w) {e : Expr}
    (h : M.value? e = some v) : M.value? (.scaleWhole c e) = some (w * v) := by
  have reads := exact.readsNumerals
  have number : M.value? (.number c) = some w := (value?_number c).trans hc
  fun_induction Expr.scaleWhole c e generalizing v with
  | case1 upper lower zero => simp [reads.zero zero hc]
  | case2 upper lower _ one => rwa [reads.one one hc, one_mul]
  | case3 upper lower _ _ ih =>
    obtain ⟨p, hp, q, hq, nonzero, rfl⟩ := value?_div.mp h
    exact value?_div.mpr ⟨w * p, ih hp, q, hq, nonzero, mul_div_assoc w p q⟩
  | case4 rest _ zero => simp [reads.zero zero hc]
  | case5 rest _ _ one => rwa [reads.one one hc, one_mul]
  | case6 rest _ _ _ one => rwa [reads.value?_isOne one h, mul_one]
  | case7 _ _ _ factors =>
    exact (value?_product_eq _).trans (value?_multiply_cons.mpr ⟨w, number, v, h, rfl⟩)
  | case8 => exact value?_times.mpr ⟨w, number, v, h, rfl⟩

theorem value?_scale {c : Numeral} (hc : M.numeral? c = some w) {e : Expr}
    (h : M.value? e = some v) : M.value? (.scale c e) = some (w * v) := by
  unfold Expr.scale
  split
  · rename_i num bottom fraction
    obtain ⟨r, rfl, den, rfl⟩ := exact.exists_exact hc
    simp only [Numeral.fraction?, Option.ite_none_left_eq_some, Option.some.injEq,
      Prod.mk.injEq] at fraction
    obtain ⟨-, rfl, rfl⟩ := fraction
    have integer (n : ℤ) : M.numeral? (.ofInt n) = some (n : K) :=
      (value?_number _).symm.trans (value?_ofInt n)
    rw [Rat.cast_def]
    split
    · rename_i upper lower
      obtain ⟨p, hp, q, hq, nonzero, rfl⟩ := value?_div.mp h
      refine value?_div.mpr ⟨_, exact.value?_scaleWhole (integer r.num) hp, _,
        exact.value?_scaleWhole (integer r.den) hq, ?_, ?_⟩
      · rw [Int.cast_natCast]
        exact mul_ne_zero den nonzero
      · rw [Int.cast_natCast, mul_div_mul_comm]
    · refine value?_div.mpr ⟨_, exact.value?_scaleWhole (integer r.num) h, _, value?_ofInt _, ?_, ?_⟩
      · rwa [Int.cast_natCast]
      · rw [Int.cast_natCast, mul_div_right_comm]
  · exact exact.value?_scaleWhole hc h

theorem value?_quotientMultiple {top bottom : Numeral × Expr} {a b p q : K}
    (ha : M.numeral? top.1 = some a) (hp : M.value? top.2 = some p)
    (hb : M.numeral? bottom.1 = some b) (hq : M.value? bottom.2 = some q) (nonzero : b * q ≠ 0) :
    ∃ c u, M.numeral? (Expr.quotientMultiple top bottom).1 = some c ∧
      M.value? (Expr.quotientMultiple top bottom).2 = some u ∧ c * u = a * p / (b * q) := by
  obtain ⟨coefficient, rest⟩ := mul_ne_zero_iff.mp nonzero
  obtain ⟨r, hr, -⟩ := exact.exists_exact ha
  obtain ⟨s, hs, -⟩ := exact.exists_exact hb
  have divisor : bottom.1.isZero = false :=
    Bool.eq_false_iff.mpr fun zero => coefficient (exact.readsNumerals.zero zero hb)
  have whole : (bottom.1.isZero || bottom.1.isNaN || top.1.isNaN) = false := by
    rw [divisor, hr, hs]
    rfl
  rw [Expr.quotientMultiple, if_neg (by simp [whole]), mul_div_mul_comm]
  refine ⟨a / b, p / q, exact.div ha hb coefficient, ?_, rfl⟩
  dsimp only
  split
  · rename_i one
    rwa [exact.readsNumerals.value?_isOne one hq, div_one]
  · exact value?_div.mpr ⟨p, hp, q, hq, rest, rfl⟩

/-- A term is its coefficient times the rest of it. -/
theorem value?_asMultiple {e : Expr} (h : M.value? e = some v) :
    ∃ c u, M.numeral? e.asMultiple.1 = some c ∧ M.value? e.asMultiple.2 = some u ∧ c * u = v := by
  have one : M.numeral? .one = some 1 := (value?_number _).symm.trans value?_one
  fun_induction Expr.asMultiple e generalizing v with
  | case1 factors =>
    obtain ⟨a, b, ha, hb, rfl⟩ := exact.numeral?_numeralProduct h
    exact ⟨a, b, ha, (value?_product_eq _).trans hb, rfl⟩
  | case2 n d ihn ihd =>
    obtain ⟨p, hp, q, hq, nonzero, rfl⟩ := value?_div.mp h
    obtain ⟨a, t, ha, ht, rfl⟩ := ihn hp
    obtain ⟨b, u, hb, hu, rfl⟩ := ihd hq
    exact exact.value?_quotientMultiple ha ht hb hu nonzero
  | case3 n => exact ⟨v, 1, (value?_number n).symm.trans h, value?_one, mul_one v⟩
  | case4 => exact ⟨1, v, one, h, one_mul v⟩

end Exact

end DifferentialReading

end SymbolicAlgebra
