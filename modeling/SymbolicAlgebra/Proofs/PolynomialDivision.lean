import SymbolicAlgebra.Polynomial.Division
import SymbolicAlgebra.Proofs.PolynomialImage

open Polynomial

/-! Coefficients and long division: the coefficients of a sparse polynomial are those of its image,
and a division leaves `p = q * d + r` for the images. -/
namespace SymbolicAlgebra

namespace Polynomial

variable {C : Type} {K : Type*} [Field K] {R : CoefficientRing C} {P : C → Prop} {φ : C → K}

/-! ## Coefficients -/

theorem lookup_eq_none {ts : List (Nat × C)} {n : Nat} (h : ∀ t ∈ ts, t.1 ≠ n) :
    ts.lookup n = none := by
  induction ts with
  | nil => rfl
  | cons t ts ih =>
    obtain ⟨first, rest⟩ := List.forall_mem_cons.mp h
    rw [List.lookup_cons, beq_eq_false_iff_ne.mpr fun same => first same.symm]
    exact ih rest

theorem coeff_termsImage (law : R.Reads P φ) {ts : List (Nat × C)} (h : ValidTerms R P ts)
    (n : Nat) : (termsImage φ ts).coeff n = φ ((ts.lookup n).getD R.zero) := by
  induction ts with
  | nil => simp [law.zero.2]
  | cons t ts ih =>
    obtain ⟨first, -, -, -, rest⟩ := validTerms_cons.mp h
    rw [termsImage_cons, Polynomial.coeff_add, Polynomial.coeff_C_mul_X_pow, ih rest,
      List.lookup_cons]
    by_cases here : n = t.1
    · have none : ts.lookup n = none :=
        lookup_eq_none fun u member => by
          have := first u member
          omega
      simp [here, here ▸ none, law.zero.2]
    · simp [here, beq_eq_false_iff_ne.mpr here]

theorem coeff_image (law : R.Reads P φ) {p : Polynomial C} (h : p.Valid R P) (n : Nat) :
    (image φ p).coeff n = φ (p.coeff R n) := coeff_termsImage law h n

theorem coeff_mem (law : R.Reads P φ) {p : Polynomial C} (h : p.Valid R P) (n : Nat) :
    P (p.coeff R n) := by
  have lookup (ts : List (Nat × C)) (ht : ∀ t ∈ ts, P t.2) :
      P ((ts.lookup n).getD R.zero) := by
    induction ts with
    | nil => exact law.zero.1
    | cons t ts ih =>
      obtain ⟨first, rest⟩ := List.forall_mem_cons.mp ht
      rw [List.lookup_cons]
      split
      · exact first
      · exact ih rest
  exact lookup p.terms h.coefficients

/-- The leading coefficient is the one at the degree. -/
theorem Valid.leading_eq {p : Polynomial C} (h : p.Valid R P) {k : Nat}
    (degree : p.degree? = some k) :
    p.leading R = p.coeff R k := by
  obtain ⟨ts, c, same⟩ := terms_of_degree? degree
  have ordered := h.ordered
  rw [same] at ordered
  have others : ts.lookup k = none := lookup_eq_none fun t member =>
    Nat.ne_of_lt ((List.pairwise_append.mp ordered).2.2 t member (k, c) (by simp))
  simp [leading, coeff, same, List.lookup_append, others]

theorem coeff_image_of_degree?_le {p : Polynomial C} (h : p.Valid R P) (law : R.Reads P φ)
    {n : Nat} (small : ∀ k, p.degree? = some k → k < n) : (image φ p).coeff n = 0 := by
  rw [coeff_image law h, coeff, lookup_eq_none, Option.getD_none, law.zero.2]
  intro t member
  cases degree : p.degree? with
  | none => simp [terms_of_degree?_none degree] at member
  | some k =>
    have := lt_of_degree? h.ordered degree member
    have := small k degree
    omega

/-! ## Coefficients in descending order -/

/-- The polynomial with these coefficients, from the highest exponent down. -/
noncomputable def descendingImage (φ : C → K) : List C → K[X]
  | [] => 0
  | c :: cs => descendingImage φ cs + Polynomial.C (φ c) * Polynomial.X ^ cs.length

theorem length_coefficientsBelow (p : Polynomial C) (n : Nat) :
    (p.coefficientsBelow R n).length = n := by
  induction n with
  | zero => rfl
  | succ n ih => rw [coefficientsBelow, List.length_cons, ih]

theorem coefficientsBelow_mem (law : R.Reads P φ) {p : Polynomial C} (h : p.Valid R P) (n : Nat) :
    ∀ c ∈ p.coefficientsBelow R n, P c := by
  induction n with
  | zero => exact nofun
  | succ n ih => exact List.forall_mem_cons.mpr ⟨coeff_mem law h n, ih⟩

theorem coeff_descendingImage (p : Polynomial C) (n k : Nat) :
    (descendingImage φ (p.coefficientsBelow R n)).coeff k =
      if k < n then φ (p.coeff R k) else 0 := by
  induction n with
  | zero => simp [coefficientsBelow, descendingImage]
  | succ n ih =>
    rw [coefficientsBelow, descendingImage, Polynomial.coeff_add, ih,
      Polynomial.coeff_C_mul_X_pow, length_coefficientsBelow]
    rcases Nat.lt_trichotomy k n with less | same | more
    · simp [less, Nat.ne_of_lt less, Nat.lt_succ_of_lt less]
    · simp [same]
    · simp [Nat.not_lt.mpr (Nat.le_of_lt more), Nat.ne_of_gt more,
        Nat.not_lt.mpr (Nat.succ_le_of_lt more)]

theorem descending_spec (law : R.Reads P φ) {p : Polynomial C} (h : p.Valid R P) :
    (∀ c ∈ p.descending R, P c) ∧ descendingImage φ (p.descending R) = image φ p := by
  unfold descending
  cases degree : p.degree? with
  | none =>
    simp [descendingImage, law.zero.1, law.zero.2, image, terms_of_degree?_none degree]
  | some k =>
    refine ⟨coefficientsBelow_mem law h _, Polynomial.ext fun n => ?_⟩
    rw [coeff_descendingImage]
    split
    · exact (coeff_image law h n).symm
    · rename_i large
      refine (coeff_image_of_degree?_le h law fun j same => ?_).symm
      rw [degree] at same
      cases same
      omega

theorem Valid.degree_word {p : Polynomial C} (h : p.Valid R P) {k : Nat}
    (degree : p.degree? = some k) : k < wordSize := by
  obtain ⟨ts, c, same⟩ := terms_of_degree? degree
  exact h.words (k, c) (by simp [same])

theorem Valid.length_descending_le {p : Polynomial C} (h : p.Valid R P) :
    (p.descending R).length ≤ wordSize := by
  unfold descending
  cases degree : p.degree? with
  | none => exact one_lt_wordSize.le
  | some k =>
    rw [length_coefficientsBelow]
    exact h.degree_word degree

theorem ofDescending_spec (law : R.Reads P φ) {cs : List C} (h : ∀ c ∈ cs, P c)
    (short : cs.length ≤ wordSize) :
    (ofDescending R cs).Valid R P ∧ (∀ t ∈ (ofDescending R cs).terms, t.1 < cs.length) ∧
      image φ (ofDescending R cs) = descendingImage φ cs := by
  induction cs with
  | nil => exact ⟨ValidTerms.nil, nofun, rfl⟩
  | cons c cs ih =>
    obtain ⟨first, rest⟩ := List.forall_mem_cons.mp h
    obtain ⟨valid, small, value⟩ := ih rest (Nat.le_of_succ_le short)
    obtain ⟨top, topValue⟩ := monomial_spec law first short
    have exponent : ∀ t ∈ (monomial R c cs.length).terms, t.1 = cs.length := by
      intro t member
      unfold monomial at member
      split at member
      · cases member
      · rw [List.mem_singleton.mp member]
    refine ⟨⟨?_, ?_, ?_, ?_⟩, ?_, ?_⟩
    · refine List.pairwise_append.mpr ⟨valid.ordered, top.ordered, fun s hs t ht => ?_⟩
      rw [exponent t ht]
      exact small s hs
    · exact List.forall_mem_append.mpr ⟨valid.words, top.words⟩
    · exact List.forall_mem_append.mpr ⟨valid.coefficients, top.coefficients⟩
    · exact List.forall_mem_append.mpr ⟨valid.nonzero, top.nonzero⟩
    · refine List.forall_mem_append.mpr ⟨fun t ht => Nat.lt_succ_of_lt (small t ht), fun t ht => ?_⟩
      rw [exponent t ht]
      exact Nat.lt_succ_self _
    · rw [ofDescending, image, termsImage_append, descendingImage, ← value, ← topValue]
      rfl

theorem leading_ofDescending {c : C} (cs : List C) (h : R.isZero c = false) :
    (ofDescending R (c :: cs)).leading R = c := by
  simp [leading, ofDescending, monomial, h]

/-! ## Division -/

theorem coeff_image_below (p : Polynomial C) (bound n : Nat) :
    (image φ (p.below bound)).coeff n = if n < bound then (image φ p).coeff n else 0 := by
  have filtered (ts : List (Nat × C)) : (termsImage φ (ts.filter fun t => t.1 < bound)).coeff n =
      if n < bound then (termsImage φ ts).coeff n else 0 := by
    induction ts with
    | nil => simp
    | cons t ts ih =>
      by_cases kept : t.1 < bound
      · rw [List.filter_cons_of_pos (by simpa using kept), termsImage_cons, termsImage_cons,
          Polynomial.coeff_add, Polynomial.coeff_add, Polynomial.coeff_C_mul_X_pow, ih]
        by_cases here : n = t.1
        · simp [here, kept]
        · simp [here]
      · rw [List.filter_cons_of_neg (by simpa using kept), termsImage_cons, Polynomial.coeff_add,
          Polynomial.coeff_C_mul_X_pow, ih]
        split
        · rw [if_neg (by omega), zero_add]
        · rfl
  exact filtered p.terms

/-- Dropping the terms from an exponent on changes nothing where they cancel. -/
theorem image_below {p : Polynomial C} {bound : Nat}
    (zero : ∀ n, bound ≤ n → (image φ p).coeff n = 0) : image φ (p.below bound) = image φ p := by
  refine Polynomial.ext fun n => ?_
  rw [coeff_image_below]
  split
  · rfl
  · exact (zero n (by omega)).symm

theorem top_monomial_le (c : C) (n : Nat) : (monomial R c n).top ≤ n := by
  unfold monomial
  split
  · exact Nat.zero_le n
  · exact Nat.le_refl n

/-- A multiple of the divisor has no higher exponent than the remainder that it is taken off. -/
theorem mulFits_of_le {divisor : Polynomial C} {degree k : Nat}
    (divisorDegree : divisor.degree? = some degree) (word : k < wordSize) (le : degree ≤ k) (c : C) :
    MulFits (monomial R c (k - degree)) divisor := by
  have small := top_monomial_le (R := R) c (k - degree)
  have degreeTop : divisor.top = degree := by rw [top, divisorDegree, Option.getD_some]
  rw [MulFits, degreeTop]
  omega

/-- One step takes the leading term off the remainder: it cancels, and nothing is above it. -/
theorem divisionStep_spec (law : R.Reads P φ) {divisor remainder term : Polynomial C}
    (hd : divisor.Valid R P) (hr : remainder.Valid R P) {degree k : Nat}
    (divisorDegree : divisor.degree? = some degree) (lead : φ (divisor.leading R) ≠ 0)
    (remainderDegree : remainder.degree? = some k) (le : degree ≤ k)
    (taken : term = monomial R (R.div (remainder.leading R) (divisor.leading R)) (k - degree)) :
    term.Valid R P ∧ ((remainder.sub R (term.mul R divisor)).below k).Valid R P ∧
      image φ remainder =
        image φ term * image φ divisor +
          image φ ((remainder.sub R (term.mul R divisor)).below k) := by
  rw [hd.leading_eq divisorDegree] at lead taken
  rw [hr.leading_eq remainderDegree] at taken
  obtain ⟨factor, factorValue⟩ := law.div (coeff_mem law hr k) (coeff_mem law hd degree) lead
  have word := hr.degree_word remainderDegree
  obtain ⟨termValid, termValue⟩ :=
    monomial_spec law factor (lt_of_le_of_lt (Nat.sub_le k degree) word)
  have fits : MulFits term divisor := taken ▸ mulFits_of_le divisorDegree word le _
  rw [← taken] at termValid termValue
  obtain ⟨productValid, productValue⟩ := mul_spec law termValid hd fits
  obtain ⟨restValid, restValue⟩ := sub_spec law hr productValid
  rw [productValue] at restValue
  have above (n : Nat) (large : k ≤ n) :
      (image φ (remainder.sub R (term.mul R divisor))).coeff n = 0 := by
    rw [restValue, Polynomial.coeff_sub, termValue, mul_assoc, Polynomial.coeff_C_mul,
      Polynomial.coeff_X_pow_mul', if_pos (by omega), factorValue, ← coeff_image law hr,
      ← coeff_image law hd]
    rw [← coeff_image law hd] at lead
    rcases Nat.eq_or_lt_of_le large with rfl | more
    · rw [Nat.sub_sub_self le, div_mul_cancel₀ _ lead, sub_self]
    · have upper : (image φ remainder).coeff n = 0 :=
        coeff_image_of_degree?_le hr law (by simp [remainderDegree, more])
      have lower : (image φ divisor).coeff (n - (k - degree)) = 0 :=
        coeff_image_of_degree?_le hd law fun j same => by
          rw [divisorDegree] at same
          cases same
          omega
      rw [upper, lower, mul_zero, sub_self]
  refine ⟨termValid, restValid.filter _, ?_⟩
  rw [image_below above, restValue]
  ring

theorem divideOnto_spec (law : R.Reads P φ) {divisor : Polynomial C} (hd : divisor.Valid R P)
    {degree : Nat} (divisorDegree : divisor.degree? = some degree)
    (lead : φ (divisor.leading R) ≠ 0) {quotient remainder : Polynomial C}
    (hq : quotient.Valid R P) (hr : remainder.Valid R P) :
    let result := divideOnto R divisor degree (divisor.leading R) quotient remainder
    result.1.Valid R P ∧ result.2.Valid R P ∧
      image φ result.1 * image φ divisor + image φ result.2 =
        image φ quotient * image φ divisor + image φ remainder := by
  fun_induction divideOnto R divisor degree (divisor.leading R) quotient remainder with
  | case1 => exact ⟨hq, hr, rfl⟩
  | case2 => exact ⟨hq, hr, rfl⟩
  | case3 quotient remainder k found large term ih =>
    obtain ⟨termValid, nextValid, step⟩ :=
      divisionStep_spec law hd hr divisorDegree lead found (by omega) rfl
    obtain ⟨sumValid, sumValue⟩ := add_spec law hq termValid
    obtain ⟨first, second, whole⟩ := ih sumValid nextValid
    refine ⟨first, second, ?_⟩
    rw [whole, sumValue, step]
    ring

/-- A polynomial is the divisor times the quotient, and the remainder. -/
theorem divRem?_spec (law : R.Reads P φ) {p divisor quotient remainder : Polynomial C}
    (hp : p.Valid R P) (hd : divisor.Valid R P) (lead : φ (divisor.leading R) ≠ 0)
    (h : p.divRem? R divisor = some (quotient, remainder)) :
    quotient.Valid R P ∧ remainder.Valid R P ∧
      image φ p = image φ quotient * image φ divisor + image φ remainder := by
  obtain ⟨degree, divisorDegree, same⟩ := Option.map_eq_some_iff.mp h
  obtain ⟨first, second, whole⟩ := divideOnto_spec law hd divisorDegree lead zero_valid hp
  rw [same] at first second whole
  exact ⟨first, second, by simpa using whole.symm⟩

end Polynomial

end SymbolicAlgebra
