import Mathlib.Data.List.Pairwise
import SymbolicAlgebra.Proofs.PolynomialReading

open Polynomial

/-! Whatever arithmetic makes of sparse polynomials, no stored coefficient passes for zero and every
operation is the one on the images, as long as no exponent leaves the word. Over exact numerals a
polynomial is given by its image. -/
namespace SymbolicAlgebra

namespace Polynomial

/-- The polynomials that the operations make of coefficients in `P`. -/
inductive Obtained {C : Type} (R : CoefficientRing C) (P : C → Prop) : Polynomial C → Prop where
  | monomial {c : C} {n : Nat} (hc : P c) (word : n < wordSize) : Obtained R P (monomial R c n)
  | ofDescending {cs : List C} (h : ∀ c ∈ cs, P c) (short : cs.length ≤ wordSize) :
      Obtained R P (ofDescending R cs)
  | add {p q : Polynomial C} (hp : Obtained R P p) (hq : Obtained R P q) : Obtained R P (p.add R q)
  | sub {p q : Polynomial C} (hp : Obtained R P p) (hq : Obtained R P q) : Obtained R P (p.sub R q)
  | neg {p : Polynomial C} (hp : Obtained R P p) : Obtained R P (p.neg R)
  | mul {p q : Polynomial C} (hp : Obtained R P p) (hq : Obtained R P q) : Obtained R P (p.mul R q)
  | pow {p : Polynomial C} (n : Nat) (hp : Obtained R P p) : Obtained R P (p.pow R n)
  | scale {p : Polynomial C} {c : C} (hp : Obtained R P p) (hc : P c) : Obtained R P (p.scale R c)
  | quotient {p divisor q r : Polynomial C} (hp : Obtained R P p) (hd : Obtained R P divisor)
      (h : p.divRem? R divisor = some (q, r)) : Obtained R P q
  | remainder {p divisor q r : Polynomial C} (hp : Obtained R P p) (hd : Obtained R P divisor)
      (h : p.divRem? R divisor = some (q, r)) : Obtained R P r

variable {C : Type} {K : Type*} [Field K] {R : CoefficientRing C} {P : C → Prop} {φ : C → K}

/-! ## What is stored -/

theorem leading_stored {p : Polynomial C} (h : p.Valid R P) {k : Nat} (degree : p.degree? = some k) :
    P (p.leading R) ∧ R.isZero (p.leading R) = false := by
  obtain ⟨ts, c, same⟩ := terms_of_degree? degree
  have member : (k, c) ∈ p.terms := by simp [same]
  have lead : p.leading R = c := by simp [leading, same]
  rw [lead]
  exact ⟨h.coefficients _ member, h.nonzero _ member⟩

/-- Division keeps the representation also where the image of the divisor's leading coefficient is
zero and its outcome means nothing. -/
theorem divideOnto_valid (law : R.Reads P φ)
    (closed : ∀ {a b}, P a → P b → R.isZero b = false → P (R.div a b)) {divisor : Polynomial C}
    (hd : divisor.Valid R P) {degree : Nat} (divisorDegree : divisor.degree? = some degree)
    {quotient remainder : Polynomial C} (hq : quotient.Valid R P) (hr : remainder.Valid R P) :
    let result := divideOnto R divisor degree (divisor.leading R) quotient remainder
    result.1.Valid R P ∧ result.2.Valid R P := by
  obtain ⟨leadIn, leadNonzero⟩ := leading_stored hd divisorDegree
  fun_induction divideOnto R divisor degree (divisor.leading R) quotient remainder with
  | case1 => exact ⟨hq, hr⟩
  | case2 => exact ⟨hq, hr⟩
  | case3 quotient remainder k found large term ih =>
    have factor : P (R.div (remainder.leading R) (divisor.leading R)) :=
      closed (leading_stored hr found).1 leadIn leadNonzero
    have word : k - degree < wordSize := lt_of_le_of_lt (Nat.sub_le k degree) (hr.degree_word found)
    have termValid : term.Valid R P := (monomial_spec law factor word).1
    have rest := (sub_spec law hr (mul_wrap law termValid hd).1).1
    exact ih (add_spec law hq termValid).1 (rest.filter _)

/-- No stored coefficient passes for zero, whatever the operations were. -/
theorem Obtained.valid (law : R.Reads P φ)
    (closed : ∀ {a b}, P a → P b → R.isZero b = false → P (R.div a b)) {p : Polynomial C}
    (h : Obtained R P p) : p.Valid R P := by
  have divided {p divisor q r : Polynomial C} (hp : p.Valid R P) (hd : divisor.Valid R P)
      (h : p.divRem? R divisor = some (q, r)) : q.Valid R P ∧ r.Valid R P := by
    obtain ⟨degree, divisorDegree, same⟩ := Option.map_eq_some_iff.mp h
    have both := divideOnto_valid law closed hd divisorDegree zero_valid hp
    rwa [same] at both
  induction h with
  | monomial hc word => exact (monomial_spec law hc word).1
  | ofDescending h short => exact (ofDescending_spec law h short).1
  | add _ _ hp hq => exact (add_spec law hp hq).1
  | sub _ _ hp hq => exact (sub_spec law hp hq).1
  | neg _ hp => exact (neg_spec law hp).1
  | mul _ _ hp hq => exact (mul_wrap law hp hq).1
  | pow n _ hp => exact (pow_wrap law hp n).1
  | scale _ hc hp => exact (scale_spec law hp hc).1
  | quotient _ _ h hp hd => exact (divided hp hd h).1
  | remainder _ _ h hp hd => exact (divided hp hd h).2

/-! ## Evaluation -/

/-- Nested multiplication, from a value that stands for the coefficients already read. -/
theorem horner_spec (law : R.Reads P φ) {x : C} (hx : P x) {cs : List C} (h : ∀ c ∈ cs, P c) {acc : C}
    (ha : P acc) :
    φ (cs.foldl (fun acc c => R.add (R.mul acc x) c) acc) =
      φ acc * φ x ^ cs.length + (descendingImage φ cs).eval (φ x) := by
  induction cs generalizing acc with
  | nil => simp [descendingImage]
  | cons c cs ih =>
    obtain ⟨first, rest⟩ := List.forall_mem_cons.mp h
    obtain ⟨product, productValue⟩ := law.mul ha hx
    obtain ⟨next, nextValue⟩ := law.add product first
    rw [List.foldl_cons, ih rest next, nextValue, productValue, descendingImage]
    simp only [Polynomial.eval_add, Polynomial.eval_mul, Polynomial.eval_C, Polynomial.eval_pow,
      Polynomial.eval_X, List.length_cons]
    ring

theorem evaluate_spec (law : R.Reads P φ) {p : Polynomial C} (h : p.Valid R P) {x : C} (hx : P x) :
    φ (p.evaluate R x) = (image φ p).eval (φ x) := by
  obtain ⟨inside, same⟩ := descending_spec law h
  rw [evaluate, horner_spec law hx inside law.zero.1, law.zero.2, zero_mul, zero_add, same]

/-! ## Equality over exact numerals -/

theorem mem_terms_iff {z : C} {ts : List (Nat × C)}
    (ascending : ts.Pairwise fun s t => s.1 < t.1) (nonzero : ∀ t ∈ ts, t.2 ≠ z) (t : Nat × C) :
    t ∈ ts ↔ t.2 ≠ z ∧ (ts.lookup t.1).getD z = t.2 := by
  induction ts with
  | nil => simp [eq_comm]
  | cons u us ih =>
    obtain ⟨first, rest⟩ := List.pairwise_cons.mp ascending
    obtain ⟨here, others⟩ := List.forall_mem_cons.mp nonzero
    rw [List.mem_cons, ih rest others, List.lookup_cons]
    by_cases same : t.1 = u.1
    · have absent : us.lookup t.1 = none := lookup_eq_none fun v member => by
        have := first v member
        omega
      have final : t = u ↔ u.2 = t.2 := ⟨fun h => h ▸ rfl, fun h => Prod.ext same h.symm⟩
      simp only [same, beq_self_eq_true, Option.getD_some, final]
      rw [← same, absent, Option.getD_none]
      constructor
      · rintro (value | ⟨notZero, zero⟩)
        · exact ⟨value ▸ here, value⟩
        · exact absurd zero.symm notZero
      · rintro ⟨-, value⟩
        exact .inl value
    · have other : t ≠ u := fun h => same (h ▸ rfl)
      simp [other, beq_eq_false_iff_ne.mpr same]

theorem terms_eq_of_lookup {z : C} {ts us : List (Nat × C)}
    (ascending : ts.Pairwise fun s t => s.1 < t.1) (ascending' : us.Pairwise fun s t => s.1 < t.1)
    (nonzero : ∀ t ∈ ts, t.2 ≠ z) (nonzero' : ∀ t ∈ us, t.2 ≠ z)
    (same : ∀ n, (ts.lookup n).getD z = (us.lookup n).getD z) : ts = us := by
  have distinct {l : List (Nat × C)} (h : l.Pairwise fun s t => s.1 < t.1) : l.Nodup :=
    h.imp fun less equal => absurd less (by rw [equal]; exact lt_irrefl _)
  have perm : ts.Perm us :=
    (List.perm_ext_iff_of_nodup (distinct ascending) (distinct ascending')).mpr fun t => by
      rw [mem_terms_iff ascending nonzero, mem_terms_iff ascending' nonzero', same]
  exact perm.eq_of_pairwise (fun s t _ _ less more => absurd less (lt_asymm more)) ascending
    ascending'

/-- The operations on exact numerals. -/
abbrev exactArithmetic : CoefficientRing Numeral := numeralCoefficients.toCoefficientRing

/-- Polynomials over exact numerals are equal if they stand for the same one. -/
theorem eq_iff_image_eq [CharZero K] {p q : Polynomial Numeral}
    (hp : p.Valid exactArithmetic fun x => x.isExact = true)
    (hq : q.Valid exactArithmetic fun x => x.isExact = true) :
    p = q ↔ image (Numeral.val K) p = image (Numeral.val K) q := by
  have law := numeralCoefficients_ring (K := K)
  have nonzero {p : Polynomial Numeral} (h : p.Valid exactArithmetic fun x => x.isExact = true) :
      ∀ t ∈ p.terms, t.2 ≠ exactArithmetic.zero := fun t member zero => by
    have stored := h.nonzero t member
    rw [zero] at stored
    cases stored
  constructor
  · rintro rfl
    rfl
  · intro same
    have coefficients (n : Nat) : p.coeff exactArithmetic n = q.coeff exactArithmetic n := by
      obtain ⟨r, left⟩ := Numeral.exists_exact (coeff_mem law hp n)
      obtain ⟨s, right⟩ := Numeral.exists_exact (coeff_mem law hq n)
      have value : (r : K) = s := by
        have := congrArg (fun f : K[X] => f.coeff n) same
        rwa [coeff_image law hp, coeff_image law hq, left, right] at this
      rw [left, right, Rat.cast_injective value]
    cases p
    cases q
    exact congrArg mk (terms_eq_of_lookup hp.ordered hq.ordered (nonzero hp) (nonzero hq)
      coefficients)

/-! ## All operations together -/

/-- What the polynomials over a coefficient ring have in common with those over the field that the
coefficients are read in. Products and powers are so as they are where every exponent that is worked
out is a word, and up to multiples of `X ^ wordSize - 1` everywhere. -/
structure Faithful (R : CoefficientRing C) (φ : C → K) : Prop where
  nonzero : ∀ {p}, Obtained R (fun _ => True) p → ∀ t ∈ p.terms, R.isZero t.2 = false
  monomial : ∀ c, ∀ n < wordSize, image φ (monomial R c n) = Polynomial.C (φ c) * Polynomial.X ^ n
  ofDescending : ∀ cs, cs.length ≤ wordSize → image φ (ofDescending R cs) = descendingImage φ cs
  add : ∀ {p q}, Obtained R (fun _ => True) p → Obtained R (fun _ => True) q →
    image φ (p.add R q) = image φ p + image φ q
  sub : ∀ {p q}, Obtained R (fun _ => True) p → Obtained R (fun _ => True) q →
    image φ (p.sub R q) = image φ p - image φ q
  neg : ∀ {p}, Obtained R (fun _ => True) p → image φ (p.neg R) = -image φ p
  mul : ∀ {p q}, Obtained R (fun _ => True) p → Obtained R (fun _ => True) q → MulFits p q →
    image φ (p.mul R q) = image φ p * image φ q
  mulWraps : ∀ {p q}, Obtained R (fun _ => True) p → Obtained R (fun _ => True) q →
    wrap (image φ (p.mul R q)) = wrap (image φ p) * wrap (image φ q)
  pow : ∀ {p}, Obtained R (fun _ => True) p → ∀ n, PowFits p n →
    image φ (p.pow R n) = image φ p ^ n
  powWraps : ∀ {p}, Obtained R (fun _ => True) p → ∀ n,
    wrap (image φ (p.pow R n)) = wrap (image φ p) ^ n
  scale : ∀ {p}, Obtained R (fun _ => True) p → ∀ c,
    image φ (p.scale R c) = image φ p * Polynomial.C (φ c)
  evaluate : ∀ {p}, Obtained R (fun _ => True) p → ∀ x,
    φ (p.evaluate R x) = (image φ p).eval (φ x)

/-- Differences of rationals as coefficients: the test for zero misses `1 - 1`. -/
def formalDifferences : CoefficientRing (ℚ × ℚ) where
  zero := (0, 0)
  one := (1, 0)
  isZero a := a.1 == 0 && a.2 == 0
  isOne a := a.1 == 1 && a.2 == 0
  add a b := (a.1 + b.1, a.2 + b.2)
  sub a b := (a.1 + b.2, a.2 + b.1)
  mul a b := (a.1 * b.1 + a.2 * b.2, a.1 * b.2 + a.2 * b.1)
  div a b := (a.1 / (b.1 - b.2), a.2 / (b.1 - b.2))
  neg a := (a.2, a.1)

end Polynomial

end SymbolicAlgebra
