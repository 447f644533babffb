import Mathlib.Algebra.Polynomial.Eval.Coeff
import Mathlib.Algebra.Polynomial.Monomial
import Mathlib.Data.Nat.Size
import Mathlib.RingTheory.AdjoinRoot
import SymbolicAlgebra.Polynomial.Basic
import SymbolicAlgebra.Proofs.Constants

open Polynomial

/-! The polynomial over a field that a sparse polynomial stands for, its coefficients read in the
field one by one. Arithmetic commutes with that reading: sums always, products up to multiples of
`X ^ 2 ^ 64 - 1`, since exponents wrap around, and as they are where no exponent does. -/
namespace SymbolicAlgebra

/-- The operations on the coefficients in `P` are those of a field under `φ`. A test for zero is
only ever passed by zeros. -/
structure CoefficientRing.Reads {C : Type} {K : Type*} [Field K] (R : CoefficientRing C)
    (P : C → Prop) (φ : C → K) : Prop where
  zero : P R.zero ∧ φ R.zero = 0
  one : P R.one ∧ φ R.one = 1
  add : ∀ {a b}, P a → P b → P (R.add a b) ∧ φ (R.add a b) = φ a + φ b
  sub : ∀ {a b}, P a → P b → P (R.sub a b) ∧ φ (R.sub a b) = φ a - φ b
  mul : ∀ {a b}, P a → P b → P (R.mul a b) ∧ φ (R.mul a b) = φ a * φ b
  div : ∀ {a b}, P a → P b → φ b ≠ 0 → P (R.div a b) ∧ φ (R.div a b) = φ a / φ b
  neg : ∀ {a}, P a → P (R.neg a) ∧ φ (R.neg a) = -φ a
  isZero : ∀ {a}, P a → R.isZero a = true → φ a = 0

namespace Polynomial

variable {C : Type} {K : Type*} [Field K]

/-- The sum of the terms as monomials. -/
noncomputable def termsImage (φ : C → K) (ts : List (Nat × C)) : K[X] :=
  (ts.map fun t => Polynomial.C (φ t.2) * Polynomial.X ^ t.1).sum

noncomputable def image (φ : C → K) (p : Polynomial C) : K[X] := termsImage φ p.terms

/-- Terms by ascending exponent, each a word, with coefficients in `P` that do not pass for zero. -/
structure ValidTerms (R : CoefficientRing C) (P : C → Prop) (ts : List (Nat × C)) : Prop where
  ordered : ts.Pairwise fun s t => s.1 < t.1
  words : ∀ t ∈ ts, t.1 < wordSize
  coefficients : ∀ t ∈ ts, P t.2
  nonzero : ∀ t ∈ ts, R.isZero t.2 = false

def Valid (R : CoefficientRing C) (P : C → Prop) (p : Polynomial C) : Prop :=
  ValidTerms R P p.terms

/-- Every exponent is a word, and stored once in ascending order. -/
structure Ascending (p : Polynomial C) : Prop where
  ordered : p.terms.Pairwise fun s t => s.1 < t.1
  words : ∀ t ∈ p.terms, t.1 < wordSize

variable {R : CoefficientRing C} {P : C → Prop} {φ : C → K}

@[simp] theorem termsImage_nil : termsImage φ [] = 0 := rfl

@[simp] theorem termsImage_cons (t : Nat × C) (ts : List (Nat × C)) :
    termsImage φ (t :: ts) = Polynomial.C (φ t.2) * Polynomial.X ^ t.1 + termsImage φ ts := by
  simp [termsImage]

@[simp] theorem termsImage_append (ts us : List (Nat × C)) :
    termsImage φ (ts ++ us) = termsImage φ ts + termsImage φ us := by
  simp [termsImage]

theorem ValidTerms.nil : ValidTerms R P [] := ⟨.nil, nofun, nofun, nofun⟩

theorem validTerms_cons {t : Nat × C} {ts : List (Nat × C)} :
    ValidTerms R P (t :: ts) ↔
      (∀ u ∈ ts, t.1 < u.1) ∧ t.1 < wordSize ∧ P t.2 ∧ R.isZero t.2 = false ∧
        ValidTerms R P ts := by
  constructor
  · rintro ⟨ordered, words, coefficients, nonzero⟩
    obtain ⟨first, rest⟩ := List.pairwise_cons.mp ordered
    obtain ⟨small, below⟩ := List.forall_mem_cons.mp words
    obtain ⟨here, others⟩ := List.forall_mem_cons.mp coefficients
    obtain ⟨notZero, remaining⟩ := List.forall_mem_cons.mp nonzero
    exact ⟨first, small, here, notZero, rest, below, others, remaining⟩
  · rintro ⟨first, small, here, notZero, rest, below, others, remaining⟩
    exact ⟨List.pairwise_cons.mpr ⟨first, rest⟩, List.forall_mem_cons.mpr ⟨small, below⟩,
      List.forall_mem_cons.mpr ⟨here, others⟩, List.forall_mem_cons.mpr ⟨notZero, remaining⟩⟩

theorem Valid.ascending {p : Polynomial C} (h : p.Valid R P) : p.Ascending := ⟨h.ordered, h.words⟩

theorem ValidTerms.filter {ts : List (Nat × C)} (h : ValidTerms R P ts) (p : Nat × C → Bool) :
    ValidTerms R P (ts.filter p) :=
  ⟨h.ordered.filter _, fun t member => h.words t (List.mem_filter.mp member).1,
    fun t member => h.coefficients t (List.mem_filter.mp member).1,
    fun t member => h.nonzero t (List.mem_filter.mp member).1⟩

/-! ## Exponents -/

theorem one_lt_wordSize : 1 < wordSize := by norm_num [wordSize]

theorem wordSize_pos : 0 < wordSize := Nat.zero_lt_of_lt one_lt_wordSize

/-- The highest exponent, and zero for the polynomial without terms. -/
def top (p : Polynomial C) : Nat := p.degree?.getD 0

/-- The leading term of a polynomial that has a degree. -/
theorem terms_of_degree? {p : Polynomial C} {k : Nat} (h : p.degree? = some k) :
    ∃ ts c, p.terms = ts ++ [(k, c)] := by
  obtain ⟨t, last, rfl⟩ := Option.map_eq_some_iff.mp h
  obtain ⟨ts, same⟩ := List.getLast?_eq_some_iff.mp last
  exact ⟨ts, t.2, same⟩

theorem terms_of_degree?_none {p : Polynomial C} (h : p.degree? = none) : p.terms = [] := by
  simpa [degree?] using h

theorem lt_of_degree? {p : Polynomial C} (ordered : p.terms.Pairwise fun s t => s.1 < t.1) {k : Nat}
    (degree : p.degree? = some k) {t : Nat × C} (member : t ∈ p.terms) : t.1 < k + 1 := by
  obtain ⟨ts, c, same⟩ := terms_of_degree? degree
  rw [same] at member ordered
  rcases List.mem_append.mp member with before | here
  · have := (List.pairwise_append.mp ordered).2.2 t before (k, c) (by simp)
    exact Nat.lt_succ_of_lt this
  · rw [List.mem_singleton.mp here]
    exact Nat.lt_succ_self k

theorem le_top {p : Polynomial C} (ordered : p.terms.Pairwise fun s t => s.1 < t.1)
    {t : Nat × C} (member : t ∈ p.terms) : t.1 ≤ p.top := by
  cases degree : p.degree? with
  | none =>
    rw [terms_of_degree?_none degree] at member
    cases member
  | some k =>
    rw [top, degree, Option.getD_some]
    exact Nat.le_of_lt_succ (lt_of_degree? ordered degree member)

theorem degree_termsImage_lt {n : Nat} {ts : List (Nat × C)} (h : ∀ t ∈ ts, t.1 < n) :
    (termsImage φ ts).degree < n := by
  induction ts with
  | nil => simp
  | cons t ts ih =>
    obtain ⟨first, rest⟩ := List.forall_mem_cons.mp h
    have monomial : (Polynomial.C (φ t.2) * Polynomial.X ^ t.1).degree < (n : WithBot ℕ) :=
      (Polynomial.degree_C_mul_X_pow_le t.1 _).trans_lt (Nat.cast_lt.mpr first)
    rw [termsImage_cons]
    exact (Polynomial.degree_add_le _ _).trans_lt (max_lt monomial (ih rest))

/-! ## Addition -/

theorem exponent_of_mem_addTerm {exponent : Nat} {c : C} {ts : List (Nat × C)} {t : Nat × C}
    (h : t ∈ addTerm R exponent c ts) : t.1 = exponent ∨ ∃ u ∈ ts, u.1 = t.1 := by
  induction ts with
  | nil =>
    unfold addTerm at h
    split at h
    · cases h
    · rw [List.mem_singleton.mp h]
      exact .inl rfl
  | cons u us ih =>
    obtain ⟨k, d⟩ := u
    unfold addTerm at h
    split at h
    · split at h
      · exact .inr ⟨t, h, rfl⟩
      · rcases List.mem_cons.mp h with rfl | other
        · exact .inl rfl
        · exact .inr ⟨t, other, rfl⟩
    · split at h
      · rename_i same
        dsimp only at h
        split at h
        · exact .inr ⟨t, List.mem_cons_of_mem _ h, rfl⟩
        · rcases List.mem_cons.mp h with rfl | other
          · exact .inl same.symm
          · exact .inr ⟨t, List.mem_cons_of_mem _ other, rfl⟩
      · rcases List.mem_cons.mp h with rfl | other
        · exact .inr ⟨_, List.mem_cons_self, rfl⟩
        · rcases ih other with same | ⟨u, member, same⟩
          · exact .inl same
          · exact .inr ⟨u, List.mem_cons_of_mem _ member, same⟩

theorem addTerm_spec (law : R.Reads P φ) {exponent : Nat} (word : exponent < wordSize) {c : C}
    (hc : P c) {ts : List (Nat × C)} (h : ValidTerms R P ts) :
    ValidTerms R P (addTerm R exponent c ts) ∧
      termsImage φ (addTerm R exponent c ts) =
        termsImage φ ts + Polynomial.C (φ c) * Polynomial.X ^ exponent := by
  induction ts with
  | nil =>
    unfold addTerm
    split
    · rename_i zero
      exact ⟨h, by simp [law.isZero hc zero]⟩
    · rename_i nonzero
      exact ⟨validTerms_cons.mpr ⟨nofun, word, hc, by simpa using nonzero, h⟩, by simp⟩
  | cons t ts ih =>
    obtain ⟨k, d⟩ := t
    obtain ⟨first, small, hd, notZero, rest⟩ := validTerms_cons.mp h
    unfold addTerm
    split
    · rename_i less
      split
      · rename_i zero
        exact ⟨h, by simp [law.isZero hc zero]⟩
      · rename_i nonzero
        refine ⟨validTerms_cons.mpr ⟨?_, word, hc, by simpa using nonzero, h⟩, ?_⟩
        · intro u member
          rcases List.mem_cons.mp member with rfl | other
          · exact less
          · exact less.trans (first u other)
        · rw [termsImage_cons]
          exact add_comm _ _
    · split
      · rename_i same
        subst same
        obtain ⟨total, value⟩ := law.add hd hc
        dsimp only
        split
        · rename_i zero
          refine ⟨rest, ?_⟩
          have cancelled : Polynomial.C (φ d) + Polynomial.C (φ c) = 0 := by
            rw [← Polynomial.C_add, ← value, law.isZero total zero, Polynomial.C_0]
          rw [termsImage_cons]
          linear_combination -(Polynomial.X ^ exponent) * cancelled
        · rename_i nonzero
          refine ⟨validTerms_cons.mpr ⟨first, small, total, by simpa using nonzero, rest⟩, ?_⟩
          simp only [termsImage_cons, value, Polynomial.C_add]
          ring
      · rename_i notLess different
        obtain ⟨valid, value⟩ := ih rest
        refine ⟨validTerms_cons.mpr ⟨?_, small, hd, notZero, valid⟩, ?_⟩
        · intro u member
          rcases exponent_of_mem_addTerm member with same | ⟨v, inside, same⟩
          · dsimp only
            omega
          · rw [← same]
            exact first v inside
        · rw [termsImage_cons, value, termsImage_cons]
          ring

theorem addTerms_spec (law : R.Reads P φ) {ts acc : List (Nat × C)}
    (ht : ∀ t ∈ ts, t.1 < wordSize ∧ P t.2) (h : ValidTerms R P acc) :
    ValidTerms R P (ts.foldl (fun acc t => addTerm R t.1 t.2 acc) acc) ∧
      termsImage φ (ts.foldl (fun acc t => addTerm R t.1 t.2 acc) acc) =
        termsImage φ acc + termsImage φ ts := by
  induction ts generalizing acc with
  | nil => exact ⟨h, by simp⟩
  | cons t ts ih =>
    obtain ⟨⟨word, first⟩, rest⟩ := List.forall_mem_cons.mp ht
    obtain ⟨valid, value⟩ := addTerm_spec law word first h
    obtain ⟨result, total⟩ := ih rest valid
    refine ⟨result, ?_⟩
    rw [List.foldl_cons, total, value, termsImage_cons]
    ring

theorem zero_valid : (zero : Polynomial C).Valid R P := ValidTerms.nil

@[simp] theorem image_zero : image φ (zero : Polynomial C) = 0 := rfl

theorem add_spec (law : R.Reads P φ) {p q : Polynomial C} (hp : p.Valid R P) (hq : q.Valid R P) :
    (p.add R q).Valid R P ∧ image φ (p.add R q) = image φ p + image φ q :=
  addTerms_spec law (fun t member => ⟨hq.words t member, hq.coefficients t member⟩) hp

theorem monomial_spec (law : R.Reads P φ) {c : C} (hc : P c) {exponent : Nat}
    (word : exponent < wordSize) :
    (monomial R c exponent).Valid R P ∧
      image φ (monomial R c exponent) = Polynomial.C (φ c) * Polynomial.X ^ exponent := by
  unfold monomial
  split
  · rename_i zero
    exact ⟨ValidTerms.nil, by simp [image, law.isZero hc zero]⟩
  · rename_i nonzero
    exact ⟨validTerms_cons.mpr ⟨nofun, word, hc, by simpa using nonzero, ValidTerms.nil⟩,
      by simp [image]⟩

theorem one_spec (law : R.Reads P φ) : (one R).Valid R P ∧ image φ (one R) = 1 := by
  obtain ⟨valid, value⟩ := monomial_spec law law.one.1 wordSize_pos
  exact ⟨valid, by rw [one, value, law.one.2]; simp⟩

/-! ## Coefficient by coefficient -/

/-- Every coefficient mapped, those that pass for zero left out. -/
theorem mapTerms_spec (law : R.Reads P φ) {f : C → C} {a : K}
    (hf : ∀ c, P c → P (f c) ∧ φ (f c) = φ c * a) {ts : List (Nat × C)} (h : ValidTerms R P ts) :
    ValidTerms R P ((ts.map fun t => (t.1, f t.2)).filter fun t => !R.isZero t.2) ∧
      termsImage φ ((ts.map fun t => (t.1, f t.2)).filter fun t => !R.isZero t.2) =
        termsImage φ ts * Polynomial.C a := by
  induction ts with
  | nil => exact ⟨ValidTerms.nil, by simp⟩
  | cons t ts ih =>
    obtain ⟨first, word, here, -, rest⟩ := validTerms_cons.mp h
    obtain ⟨valid, value⟩ := ih rest
    obtain ⟨mapped, scaled⟩ := hf t.2 here
    rw [List.map_cons, List.filter_cons]
    cases zero : R.isZero (f t.2) with
    | true =>
      simp only [Bool.not_true, Bool.false_eq_true, ↓reduceIte, termsImage_cons]
      refine ⟨valid, ?_⟩
      have gone : Polynomial.C (φ t.2) * Polynomial.C a = 0 := by
        rw [← Polynomial.C_mul, ← scaled, law.isZero mapped zero, Polynomial.C_0]
      rw [value]
      linear_combination -(Polynomial.X ^ t.1) * gone
    | false =>
      simp only [Bool.not_false, ↓reduceIte, termsImage_cons]
      refine ⟨validTerms_cons.mpr ⟨?_, word, mapped, zero, valid⟩, ?_⟩
      · intro u member
        obtain ⟨v, inside, rfl⟩ := List.mem_map.mp (List.mem_filter.mp member).1
        exact first v inside
      · rw [value, scaled, Polynomial.C_mul]
        ring

theorem neg_spec (law : R.Reads P φ) {p : Polynomial C} (h : p.Valid R P) :
    (p.neg R).Valid R P ∧ image φ (p.neg R) = -image φ p := by
  obtain ⟨valid, value⟩ := mapTerms_spec (a := -1) law
    (fun c hc => ⟨(law.neg hc).1, by rw [(law.neg hc).2, mul_neg_one]⟩) h
  exact ⟨valid, value.trans (by simp [image])⟩

theorem sub_spec (law : R.Reads P φ) {p q : Polynomial C} (hp : p.Valid R P) (hq : q.Valid R P) :
    (p.sub R q).Valid R P ∧ image φ (p.sub R q) = image φ p - image φ q := by
  obtain ⟨opposite, negated⟩ := neg_spec law hq
  obtain ⟨valid, value⟩ := add_spec law hp opposite
  exact ⟨valid, by rw [sub, value, negated, sub_eq_add_neg]⟩

theorem scale_spec (law : R.Reads P φ) {p : Polynomial C} (h : p.Valid R P) {c : C} (hc : P c) :
    (p.scale R c).Valid R P ∧ image φ (p.scale R c) = image φ p * Polynomial.C (φ c) :=
  mapTerms_spec law (fun _ hd => ⟨(law.mul hd hc).1, (law.mul hd hc).2⟩) h

/-! ## Multiplication

Exponents are added as words. That keeps products up to multiples of `X ^ wordSize - 1`, and a
polynomial of lower degree is given by what it is up to those. -/

/-- The polynomial whose multiples are lost where exponents wrap around at `w`. -/
noncomputable def modulus (K : Type*) [Field K] (w : Nat) : K[X] :=
  Polynomial.X ^ w - Polynomial.C 1

/-- A polynomial up to multiples of `X ^ w - 1`. -/
noncomputable def wrapAt (w : Nat) : K[X] →+* AdjoinRoot (modulus K w) :=
  AdjoinRoot.mk (modulus K w)

theorem wrapAt_X_pow_mod (w n : Nat) :
    wrapAt w (Polynomial.X ^ (n % w) : K[X]) = wrapAt w (Polynomial.X ^ n) := by
  have zero : wrapAt w (Polynomial.X ^ w - Polynomial.C 1 : K[X]) = 0 := AdjoinRoot.mk_self
  rw [map_sub, map_pow, Polynomial.C_1, map_one] at zero
  rw [map_pow, map_pow]
  exact (pow_eq_pow_mod n (sub_eq_zero.mp zero)).symm

/-- Below the degree of the modulus nothing is lost. -/
theorem eq_of_wrapAt_eq {w : Nat} (positive : 0 < w) {f g : K[X]} (hf : f.degree < w)
    (hg : g.degree < w) (same : wrapAt w f = wrapAt w g) : f = g := by
  have divides : modulus K w ∣ f - g := AdjoinRoot.mk_eq_mk.mp same
  refine sub_eq_zero.mp (Polynomial.eq_zero_of_dvd_of_degree_lt divides ?_)
  rw [modulus, Polynomial.degree_X_pow_sub_C positive]
  exact (Polynomial.degree_sub_le f g).trans_lt (max_lt hf hg)

/-- A polynomial up to multiples of `X ^ wordSize - 1`. -/
noncomputable abbrev wrap : K[X] →+* AdjoinRoot (modulus K wordSize) := wrapAt wordSize

theorem addProduct_spec (law : R.Reads P φ) (exponent : Nat) {c : C} (hc : P c)
    {ts acc : List (Nat × C)} (ht : ∀ t ∈ ts, P t.2) (h : ValidTerms R P acc) :
    ValidTerms R P (addProduct R exponent c ts acc) ∧
      wrap (termsImage φ (addProduct R exponent c ts acc)) =
        wrap (termsImage φ acc) +
          wrap (Polynomial.C (φ c) * Polynomial.X ^ exponent) * wrap (termsImage φ ts) := by
  induction ts generalizing acc with
  | nil => exact ⟨h, by simp [addProduct]⟩
  | cons t ts ih =>
    obtain ⟨first, rest⟩ := List.forall_mem_cons.mp ht
    obtain ⟨product, value⟩ := law.mul hc first
    have word : (exponent + t.1) % wordSize < wordSize := Nat.mod_lt _ wordSize_pos
    have step : ValidTerms R P (if R.isZero (R.mul c t.2) then acc
          else addTerm R ((exponent + t.1) % wordSize) (R.mul c t.2) acc) ∧
        termsImage φ (if R.isZero (R.mul c t.2) then acc
          else addTerm R ((exponent + t.1) % wordSize) (R.mul c t.2) acc) =
          termsImage φ acc +
            Polynomial.C (φ c * φ t.2) * Polynomial.X ^ ((exponent + t.1) % wordSize) := by
      rw [← value]
      split
      · rename_i zero
        exact ⟨h, by simp [law.isZero product zero]⟩
      · exact addTerm_spec law word product h
    obtain ⟨result, total⟩ := ih rest step.1
    refine ⟨result, ?_⟩
    rw [addProduct, List.foldl_cons, ← addProduct, total, step.2, termsImage_cons, Polynomial.C_mul]
    simp only [map_add, map_mul, wrapAt_X_pow_mod, pow_add]
    ring

/-- Products up to multiples of `X ^ wordSize - 1`. -/
theorem mul_wrap (law : R.Reads P φ) {p q : Polynomial C} (hp : p.Valid R P) (hq : q.Valid R P) :
    (p.mul R q).Valid R P ∧
      wrap (image φ (p.mul R q)) = wrap (image φ p) * wrap (image φ q) := by
  have fold (ts acc : List (Nat × C)) (ht : ∀ t ∈ ts, P t.2) (h : ValidTerms R P acc) :
      ValidTerms R P (ts.foldl (fun acc t => addProduct R t.1 t.2 q.terms acc) acc) ∧
        wrap (termsImage φ (ts.foldl (fun acc t => addProduct R t.1 t.2 q.terms acc) acc)) =
          wrap (termsImage φ acc) + wrap (termsImage φ ts) * wrap (image φ q) := by
    induction ts generalizing acc with
    | nil => exact ⟨h, by simp⟩
    | cons t ts ih =>
      obtain ⟨first, rest⟩ := List.forall_mem_cons.mp ht
      obtain ⟨valid, value⟩ := addProduct_spec law t.1 first hq.coefficients h
      obtain ⟨result, total⟩ := ih _ rest valid
      refine ⟨result, ?_⟩
      rw [List.foldl_cons, total, value, termsImage_cons, image, map_add]
      ring
  obtain ⟨valid, value⟩ := fold p.terms [] hp.coefficients ValidTerms.nil
  exact ⟨valid, by rw [image, mul, value]; simp [image]⟩

/-- Powers up to multiples of `X ^ wordSize - 1`. -/
theorem pow_wrap (law : R.Reads P φ) {p : Polynomial C} (h : p.Valid R P) (n : Nat) :
    (p.pow R n).Valid R P ∧ wrap (image φ (p.pow R n)) = wrap (image φ p) ^ n := by
  obtain ⟨unit, unitValue⟩ := one_spec law
  obtain ⟨valid, value⟩ := powerOnto_spec (P := Valid R P) (φ := fun p => wrap (image φ p))
    (fun a b ha hb => mul_wrap law ha hb) n unit h
  exact ⟨valid, by rw [pow, value, unitValue, map_one, one_mul]⟩

/-- The sum of any two exponents is a word. -/
def MulFits (p q : Polynomial C) : Prop := p.top + q.top < wordSize

instance (p q : Polynomial C) : Decidable (MulFits p q) := inferInstanceAs (Decidable (_ < _))

/-- Repeated squaring leaves the word nowhere. Its last square, which nothing is made of, is the
power to `2 ^ n.size`. -/
def PowFits (p : Polynomial C) (n : Nat) : Prop := p.top * 2 ^ n.size < wordSize

instance (p : Polynomial C) (n : Nat) : Decidable (PowFits p n) :=
  inferInstanceAs (Decidable (_ < _))

theorem Valid.natDegree_image_le {p : Polynomial C} (h : p.Valid R P) :
    (image φ p).natDegree ≤ p.top := by
  refine Polynomial.natDegree_le_of_degree_le (Order.le_of_lt_succ ?_)
  exact degree_termsImage_lt fun t member => Nat.lt_succ_of_le (le_top h.ordered member)

theorem degree_lt_of_natDegree_lt {f : K[X]} {n : Nat} (h : f.natDegree < n) : f.degree < n :=
  Polynomial.degree_le_natDegree.trans_lt (Nat.cast_lt.mpr h)

/-- A product of low enough degree is the one of the images. -/
theorem mul_image (law : R.Reads P φ) {p q : Polynomial C} (hp : p.Valid R P) (hq : q.Valid R P)
    (small : (image φ p).natDegree + (image φ q).natDegree < wordSize) :
    image φ (p.mul R q) = image φ p * image φ q := by
  obtain ⟨valid, value⟩ := mul_wrap law hp hq
  rw [← map_mul] at value
  refine eq_of_wrapAt_eq wordSize_pos (degree_termsImage_lt valid.words) ?_ value
  exact degree_lt_of_natDegree_lt (lt_of_le_of_lt Polynomial.natDegree_mul_le small)

/-- So is a power, whatever its squares leave. -/
theorem pow_image (law : R.Reads P φ) {p : Polynomial C} (h : p.Valid R P) {n : Nat}
    (small : n * (image φ p).natDegree < wordSize) : image φ (p.pow R n) = image φ p ^ n := by
  obtain ⟨valid, value⟩ := pow_wrap law h n
  rw [← map_pow] at value
  refine eq_of_wrapAt_eq wordSize_pos (degree_termsImage_lt valid.words) ?_ value
  exact degree_lt_of_natDegree_lt (lt_of_le_of_lt Polynomial.natDegree_pow_le small)

theorem mul_spec (law : R.Reads P φ) {p q : Polynomial C} (hp : p.Valid R P) (hq : q.Valid R P)
    (fits : MulFits p q) :
    (p.mul R q).Valid R P ∧ image φ (p.mul R q) = image φ p * image φ q := by
  refine ⟨(mul_wrap law hp hq).1, mul_image law hp hq (lt_of_le_of_lt ?_ fits)⟩
  exact Nat.add_le_add hp.natDegree_image_le hq.natDegree_image_le

theorem pow_spec (law : R.Reads P φ) {p : Polynomial C} (h : p.Valid R P) {n : Nat}
    (fits : PowFits p n) : (p.pow R n).Valid R P ∧ image φ (p.pow R n) = image φ p ^ n := by
  refine ⟨(pow_wrap law h n).1, pow_image law h ?_⟩
  calc n * (image φ p).natDegree ≤ 2 ^ n.size * p.top :=
        Nat.mul_le_mul n.lt_size_self.le h.natDegree_image_le
    _ < wordSize := by rwa [Nat.mul_comm]

end Polynomial

end SymbolicAlgebra
