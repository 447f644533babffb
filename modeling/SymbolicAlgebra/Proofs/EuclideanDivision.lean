import Mathlib.Algebra.Polynomial.FieldDivision
import SymbolicAlgebra.Proofs.LoopRuns
import SymbolicAlgebra.Proofs.PolynomialArithmetic

open Polynomial

/-! Long division. Its loop stops for any operations on the coefficients, with a remainder below the
degree of the divisor; where the coefficients are read in a field it divides there, and over exact
numerals quotient and remainder are the only ones. -/
namespace SymbolicAlgebra

namespace Polynomial

variable {C : Type} {R : CoefficientRing C}

/-! ## Exponents -/

/-- What holds of all exponents. -/
def EachExponent (Q : Nat → Prop) (ts : List (Nat × C)) : Prop := ∀ t ∈ ts, Q t.1

/-- No exponent is above `k`. -/
def UpTo (k : Nat) : List (Nat × C) → Prop := EachExponent (· ≤ k)

section EachExponent

variable {Q : Nat → Prop}

theorem addTerm_eachExponent {exponent : Nat} {c : C} {ts : List (Nat × C)} (he : Q exponent)
    (h : EachExponent Q ts) : EachExponent Q (addTerm R exponent c ts) := by
  intro t member
  rcases exponent_of_mem_addTerm member with same | ⟨u, inside, same⟩
  · exact same ▸ he
  · exact same ▸ h u inside

theorem add_eachExponent {p q : Polynomial C} (hp : EachExponent Q p.terms)
    (hq : EachExponent Q q.terms) : EachExponent Q (p.add R q).terms :=
  List.foldlRecOn q.terms _ hp fun _ h t member => addTerm_eachExponent (hq t member) h

theorem neg_eachExponent {p : Polynomial C} (h : EachExponent Q p.terms) :
    EachExponent Q (p.neg R).terms := by
  intro t member
  obtain ⟨u, inside, rfl⟩ := List.mem_map.mp (List.mem_filter.mp member).1
  exact h u inside

theorem sub_eachExponent {p q : Polynomial C} (hp : EachExponent Q p.terms)
    (hq : EachExponent Q q.terms) : EachExponent Q (p.sub R q).terms :=
  add_eachExponent hp (neg_eachExponent hq)

/-- What holds of the sums of exponents as words holds of the exponents of a product. -/
theorem mul_eachExponent {p q : Polynomial C}
    (h : ∀ s ∈ p.terms, ∀ t ∈ q.terms, Q ((s.1 + t.1) % wordSize)) :
    EachExponent Q (p.mul R q).terms := by
  refine List.foldlRecOn p.terms _ nofun fun acc inside s hs => ?_
  refine List.foldlRecOn q.terms _ inside fun acc inside t ht => ?_
  dsimp only
  split
  · exact inside
  · exact addTerm_eachExponent (h s hs t ht) inside

end EachExponent

theorem mul_words (p q : Polynomial C) : EachExponent (· < wordSize) (p.mul R q).terms :=
  mul_eachExponent fun _ _ _ _ => Nat.mod_lt _ wordSize_pos

theorem mul_upTo {m n : Nat} {p q : Polynomial C} (hp : UpTo m p.terms) (hq : UpTo n q.terms) :
    UpTo (m + n) (p.mul R q).terms :=
  mul_eachExponent fun s hs t ht => (Nat.mod_le _ _).trans (Nat.add_le_add (hp s hs) (hq t ht))

theorem monomial_upTo (c : C) (n : Nat) : UpTo n (monomial R c n).terms := by
  intro t member
  unfold monomial at member
  split at member
  · cases member
  · rw [List.mem_singleton.mp member]

theorem addTerm_ordered (exponent : Nat) (c : C) {ts : List (Nat × C)}
    (h : ts.Pairwise fun s t => s.1 < t.1) :
    (addTerm R exponent c ts).Pairwise fun s t => s.1 < t.1 := by
  induction ts with
  | nil =>
    unfold addTerm
    split
    · exact h
    · exact List.pairwise_singleton _ _
  | cons t ts ih =>
    obtain ⟨k, d⟩ := t
    obtain ⟨first, rest⟩ := List.pairwise_cons.mp h
    unfold addTerm
    split
    · rename_i less
      split
      · exact h
      · refine List.pairwise_cons.mpr ⟨List.forall_mem_cons.mpr ⟨less, fun u member => ?_⟩, h⟩
        exact less.trans (first u member)
    · split
      · dsimp only
        split
        · exact rest
        · exact List.pairwise_cons.mpr ⟨first, rest⟩
      · refine List.pairwise_cons.mpr ⟨fun u member => ?_, ih rest⟩
        rcases exponent_of_mem_addTerm member with same | ⟨v, inside, same⟩
        · dsimp only
          omega
        · rw [← same]
          exact first v inside

theorem add_ascending {p q : Polynomial C} (hp : p.Ascending)
    (hq : EachExponent (· < wordSize) q.terms) : (p.add R q).Ascending :=
  ⟨List.foldlRecOn q.terms _ hp.ordered fun _ h t _ => addTerm_ordered t.1 t.2 h,
    add_eachExponent (Q := (· < wordSize)) hp.words hq⟩

theorem sub_mul_ascending {p : Polynomial C} (hp : p.Ascending) (q r : Polynomial C) :
    (p.sub R (q.mul R r)).Ascending := add_ascending hp (neg_eachExponent (mul_words q r))

theorem Ascending.filter {p : Polynomial C} (h : p.Ascending) (keep : Nat × C → Bool) :
    (Polynomial.mk (p.terms.filter keep)).Ascending :=
  ⟨h.ordered.filter _, fun t member => h.words t (List.mem_filter.mp member).1⟩

theorem Ascending.upTo {p : Polynomial C} (h : p.Ascending) {k : Nat}
    (degree : p.degree? = some k) : UpTo k p.terms := fun _ member =>
  Nat.le_of_lt_succ (lt_of_degree? h.ordered degree member)

/-! ## The loop -/

/-- The terms at other exponents. -/
def without (p : Polynomial C) (exponent : Nat) : Polynomial C :=
  ⟨p.terms.filter fun t => t.1 ≠ exponent⟩

theorem below_eq_without {p : Polynomial C} {k : Nat} (h : UpTo k p.terms) :
    p.below k = p.without k := by
  refine congrArg mk (List.filter_congr fun t member => ?_)
  have := h t member
  exact decide_eq_decide.mpr (by omega)

/-- A turn of the division with quotient and remainder so far. While the remainder has the degree of
the divisor, the quotient of their leading terms is added to the quotient, its multiple of the
divisor subtracted from the remainder, and the leading term removed whatever came of it. -/
def divisionTurn (R : CoefficientRing C) (divisor : Polynomial C) :
    Polynomial C × Polynomial C → Option (Polynomial C × Polynomial C)
  | (quotient, remainder) =>
    match divisor.degree?, remainder.degree? with
    | some degree, some k =>
      if k < degree then none
      else
        let term := monomial R (R.div (remainder.leading R) (divisor.leading R)) (k - degree)
        some (quotient.add R term, (remainder.sub R (term.mul R divisor)).without k)
    | _, _ => none

/-- A turn brings no term above the one that it removes. -/
theorem remainder_upTo {divisor remainder : Polynomial C} (hd : divisor.Ascending)
    (hr : remainder.Ascending) {degree k : Nat} (divisorDegree : divisor.degree? = some degree)
    (remainderDegree : remainder.degree? = some k) (le : degree ≤ k) (c : C) :
    UpTo k (remainder.sub R ((monomial R c (k - degree)).mul R divisor)).terms := by
  have product := mul_upTo (R := R) (monomial_upTo (R := R) c (k - degree)) (hd.upTo divisorDegree)
  rw [Nat.sub_add_cancel le] at product
  exact sub_eachExponent (hr.upTo remainderDegree) product

theorem divisionTurn_ascending {divisor : Polynomial C} (s t : Polynomial C × Polynomial C)
    (h : s.2.Ascending) (turn : divisionTurn R divisor s = some t) : t.2.Ascending := by
  obtain ⟨quotient, remainder⟩ := s
  dsimp only [divisionTurn] at turn
  split at turn
  · simp only [Option.ite_none_left_eq_some, Option.some.injEq] at turn
    obtain ⟨-, rfl⟩ := turn
    exact (sub_mul_ascending h _ divisor).filter _
  · cases turn

theorem small_of_stopped {divisor : Polynomial C} {degree : Nat}
    (divisorDegree : divisor.degree? = some degree) {s : Polynomial C × Polynomial C}
    (h : s.2.Ascending) (stopped : divisionTurn R divisor s = none) :
    ∀ t ∈ s.2.terms, t.1 < degree := by
  obtain ⟨quotient, remainder⟩ := s
  intro t member
  cases remainderDegree : remainder.degree? with
  | none => simp [terms_of_degree?_none remainderDegree] at member
  | some k =>
    have := h.upTo remainderDegree t member
    simp only [divisionTurn, divisorDegree, remainderDegree] at stopped
    split at stopped
    · omega
    · cases stopped

/-- The loop stops, after one turn at most for each exponent from the degree of the divisor up to
that of the remainder. -/
theorem divideOnto_endsIn {divisor : Polynomial C} (hd : divisor.Ascending) {degree : Nat}
    (divisorDegree : divisor.degree? = some degree) (quotient : Polynomial C)
    {remainder : Polynomial C} (hr : remainder.Ascending) :
    ∃ turns ≤ remainder.degree?.elim 0 (· + 1) - degree,
      EndsIn (divisionTurn R divisor) turns (quotient, remainder)
        (divideOnto R divisor degree (divisor.leading R) quotient remainder) := by
  fun_induction divideOnto R divisor degree (divisor.leading R) quotient remainder with
  | case1 quotient remainder found =>
    exact ⟨0, Nat.zero_le _, .stop (by simp [divisionTurn, found])⟩
  | case2 quotient remainder k found small =>
    exact ⟨0, Nat.zero_le _, .stop (by simp [divisionTurn, divisorDegree, found, small])⟩
  | case3 quotient remainder k found large term ih =>
    have le : degree ≤ k := Nat.le_of_not_lt large
    have removed := below_eq_without (remainder_upTo (R := R) hd hr divisorDegree found le
      (R.div (remainder.leading R) (divisor.leading R)))
    obtain ⟨turns, bound, rest⟩ := ih ((sub_mul_ascending hr term divisor).filter _)
    refine ⟨turns + 1, ?_, .next ?_ rest⟩
    · have fallen : ((remainder.sub R (term.mul R divisor)).below k).degree?.elim 0 (· + 1) ≤ k := by
        cases next : ((remainder.sub R (term.mul R divisor)).below k).degree? with
        | none => exact Nat.zero_le _
        | some j => exact degree?_below_lt next
      simp only [found, Option.elim_some]
      omega
    · rw [removed]
      simp [divisionTurn, divisorDegree, found, large, term]

/-! ## Euclidean division -/

section Images

variable {K : Type*} [Field K] {P : C → Prop} {φ : C → K}

theorem le_degree_image {divisor : Polynomial C} (law : R.Reads P φ) (h : divisor.Valid R P)
    {degree : Nat} (divisorDegree : divisor.degree? = some degree)
    (lead : φ (divisor.leading R) ≠ 0) : (degree : WithBot ℕ) ≤ (image φ divisor).degree := by
  refine Polynomial.le_degree_of_ne_zero ?_
  rwa [coeff_image law h, ← h.leading_eq divisorDegree]

/-- Quotient and remainder are those of the field's polynomials if the remainder is of lower degree
than the divisor. -/
theorem eq_div_mod_of_degree_lt {f g q r : K[X]} (whole : f = q * g + r)
    (small : r.degree < g.degree) : q = f / g ∧ r = f % g := by
  have nonzero : g ≠ 0 := fun zero => by simp [zero] at small
  have remainder : f % g = r := by
    rw [whole, Polynomial.add_mod, EuclideanDomain.mod_eq_zero.mpr (dvd_mul_left g q), zero_add]
    exact (Polynomial.mod_eq_self_iff nonzero).mpr small
  refine ⟨mul_right_cancel₀ nonzero ?_, remainder.symm⟩
  have divided := EuclideanDomain.div_add_mod f g
  rw [remainder] at divided
  linear_combination -whole - divided

end Images

/-- The loop stops for whatever operations, and its last state is the result. -/
theorem divRem?_endsIn (R : CoefficientRing C) {p divisor : Polynomial C} (hp : p.Ascending)
    (hd : divisor.Ascending) {degree : Nat} (divisorDegree : divisor.degree? = some degree) :
    ∃ turns ≤ p.degree?.elim 0 (· + 1) - degree, ∃ quotient remainder,
      EndsIn (divisionTurn R divisor) turns (zero, p) (quotient, remainder) ∧
        p.divRem? R divisor = some (quotient, remainder) ∧
          ∀ t ∈ remainder.terms, t.1 < degree := by
  obtain ⟨turns, bound, run⟩ :=
    divideOnto_endsIn (R := R) hd divisorDegree zero hp
  refine ⟨turns, bound, _, _, run, by simp [divRem?, divisorDegree], ?_⟩
  have ascending := run.invariant (P := fun s => s.2.Ascending) divisionTurn_ascending hp
  exact small_of_stopped divisorDegree ascending run.stopped

/-! ## Over exact numerals -/

/-- Polynomials over exact numerals in their one form. -/
abbrev Exact (p : Polynomial Numeral) : Prop :=
  p.Valid exactArithmetic fun x => x.isExact = true

theorem Exact.val_leading_ne_zero {p : Polynomial Numeral} (h : p.Exact) {degree : Nat}
    (known : p.degree? = some degree) : (p.leading exactArithmetic).val ℚ ≠ 0 := by
  obtain ⟨exact, nonzero⟩ := leading_stored h known
  obtain ⟨r, same⟩ := Numeral.exists_exact exact
  rw [same] at nonzero ⊢
  simpa [exactArithmetic, numeralCoefficients, Numeral.isZero] using nonzero

/-- Division gives polynomials in their one form, and no others are quotient and remainder. -/
theorem Exact.divRem?_unique {p divisor : Polynomial Numeral} (hp : p.Exact) (hd : divisor.Exact)
    {degree : Nat} (known : divisor.degree? = some degree) :
    ∃ quotient remainder, quotient.Exact ∧ remainder.Exact ∧
      p.divRem? exactArithmetic divisor = some (quotient, remainder) ∧
        ∀ q r : Polynomial Numeral, q.Exact → r.Exact →
          (image (Numeral.val ℚ) p =
              image (Numeral.val ℚ) q * image (Numeral.val ℚ) divisor + image (Numeral.val ℚ) r ∧
            (∀ t ∈ r.terms, t.1 < degree) ↔ q = quotient ∧ r = remainder) := by
  have law := numeralCoefficients_ring (K := ℚ)
  have lead := hd.val_leading_ne_zero known
  have below {r : Polynomial Numeral} (hr : r.Exact) (small : ∀ t ∈ r.terms, t.1 < degree) :=
    (degree_termsImage_lt (φ := Numeral.val ℚ) small).trans_le (le_degree_image law hd known lead)
  obtain ⟨-, -, quotient, remainder, -, result, small⟩ :=
    divRem?_endsIn exactArithmetic hp.ascending hd.ascending known
  obtain ⟨validQuotient, validRemainder, whole⟩ := divRem?_spec law hp hd lead result
  refine ⟨quotient, remainder, validQuotient, validRemainder, result, fun q r hq hr => ⟨?_, ?_⟩⟩
  · rintro ⟨other, smaller⟩
    obtain ⟨first, second⟩ := eq_div_mod_of_degree_lt whole (below validRemainder small)
    obtain ⟨first', second'⟩ := eq_div_mod_of_degree_lt other (below hr smaller)
    exact ⟨(eq_iff_image_eq hq validQuotient).mpr (first'.trans first.symm),
      (eq_iff_image_eq hr validRemainder).mpr (second'.trans second.symm)⟩
  · rintro ⟨rfl, rfl⟩
    exact ⟨whole, small⟩

universe u

/-- Division by a polynomial without terms gives nothing. By any other one its loop stops, for
whatever operations on the coefficients, with a remainder below the degree of the divisor; wherever
the coefficients are read in a field that has the divisor's leading coefficient as other than zero,
it divides there; and over exact numerals no other quotient and remainder do. -/
theorem divRem?_euclidean (R : CoefficientRing C) {p divisor : Polynomial C} (hp : p.Ascending)
    (hd : divisor.Ascending) :
    (divisor.terms = [] → p.divRem? R divisor = none) ∧
    (∀ degree, divisor.degree? = some degree →
      ∃ turns ≤ p.degree?.elim 0 (· + 1) - degree, ∃ quotient remainder,
        EndsIn (divisionTurn R divisor) turns (zero, p) (quotient, remainder) ∧
        p.divRem? R divisor = some (quotient, remainder) ∧
        (∀ t ∈ remainder.terms, t.1 < degree) ∧
        ∀ {K : Type u} [Field K] {P : C → Prop} {φ : C → K}, R.Reads P φ → p.Valid R P →
          divisor.Valid R P → φ (divisor.leading R) ≠ 0 →
            image φ p = image φ quotient * image φ divisor + image φ remainder) ∧
    ∀ {a b : Polynomial Numeral}, a.Exact → b.Exact → ∀ degree, b.degree? = some degree →
      ∃ quotient remainder, quotient.Exact ∧ remainder.Exact ∧
        a.divRem? exactArithmetic b = some (quotient, remainder) ∧
        ∀ q r : Polynomial Numeral, q.Exact → r.Exact →
          (image (Numeral.val ℚ) a =
              image (Numeral.val ℚ) q * image (Numeral.val ℚ) b + image (Numeral.val ℚ) r ∧
            (∀ t ∈ r.terms, t.1 < degree) ↔ q = quotient ∧ r = remainder) := by
  refine ⟨fun empty => ?_, fun degree known => ?_, fun ha hb degree known =>
    Exact.divRem?_unique ha hb known⟩
  · simp [divRem?, degree?, empty]
  · obtain ⟨turns, bound, quotient, remainder, run, result, small⟩ := divRem?_endsIn R hp hd known
    refine ⟨turns, bound, quotient, remainder, run, result, small, ?_⟩
    intro K _ P φ law validDividend validDivisor lead
    exact (divRem?_spec law validDividend validDivisor lead result).2.2

/-- `X ^ 2` over `a * X + 1` with coefficients that are kept as they were written: at `a = 2` it is a
division, though neither leading term is seen to cancel. Over exact numerals `X ^ 2 + 1` is
`X / 2 - 1 / 4` times `2 * X + 1` with `5 / 4` left, and only that. -/
theorem divRem?_euclidean_of_linear_divisor :
    let R := (symbolicCoefficients id).toCoefficientRing
    let reading := Reading.ofAssignment fun _ => (2 : ℚ)
    let p : Polynomial Expr := ⟨[(2, .one)]⟩
    let divisor : Polynomial Expr := ⟨[(0, .one), (1, .ident "a")]⟩
    let a : Polynomial Numeral := ⟨[(0, .exact 1), (2, .exact 1)]⟩
    let b : Polynomial Numeral := ⟨[(0, .exact 1), (1, .exact 2)]⟩
    (p.Ascending ∧ divisor.Ascending ∧ R.Reads reading.Defined reading.val ∧
        p.Valid R reading.Defined ∧ divisor.Valid R reading.Defined ∧
        reading.val (divisor.leading R) ≠ 0) ∧
      (∃ turns ≤ 2, ∃ quotient remainder,
        EndsIn (divisionTurn R divisor) turns (zero, p) (quotient, remainder) ∧
        p.divRem? R divisor = some (quotient, remainder) ∧
        (∀ t ∈ remainder.terms, t.1 < 1) ∧
        image reading.val p =
          image reading.val quotient * image reading.val divisor + image reading.val remainder) ∧
      a.Exact ∧ b.Exact ∧
        ∀ q r : Polynomial Numeral, q.Exact → r.Exact →
          (image (Numeral.val ℚ) a =
              image (Numeral.val ℚ) q * image (Numeral.val ℚ) b + image (Numeral.val ℚ) r ∧
            (∀ t ∈ r.terms, t.1 < 1) ↔
            q = ⟨[(0, .exact (-1 / 4)), (1, .exact (1 / 2))]⟩ ∧ r = ⟨[(0, .exact (5 / 4))]⟩) := by
  intro R reading p divisor a b
  have law : R.Reads reading.Defined reading.val :=
    (symbolicCoefficients_reads fun e => Reading.Keeps.refl e).ring
  have validDividend : p.Valid R reading.Defined :=
    ⟨by simp [p], by decide +kernel, by simp [p, Reading.defined_one], by decide⟩
  have validDivisor : divisor.Valid R reading.Defined :=
    ⟨by simp [divisor], by decide +kernel, by simp [divisor, Reading.defined_one], by decide⟩
  have lead : reading.val (divisor.leading R) ≠ 0 :=
    by norm_num [divisor, reading, leading, Reading.ofAssignment]
  have exactDividend : a.Exact := ⟨by simp [a], by decide +kernel, by decide, by decide⟩
  have exactDivisor : b.Exact := ⟨by simp [b], by decide +kernel, by decide, by decide⟩
  obtain ⟨-, divides, unique⟩ :=
    divRem?_euclidean R validDividend.ascending validDivisor.ascending
  refine ⟨⟨validDividend.ascending, validDivisor.ascending, law, validDividend, validDivisor, lead⟩,
    ?_, exactDividend, exactDivisor, ?_⟩
  · obtain ⟨turns, bound, quotient, remainder, run, result, small, whole⟩ := divides 1 rfl
    exact ⟨turns, bound, quotient, remainder, run, result, small,
      whole law validDividend validDivisor lead⟩
  · obtain ⟨quotient, remainder, -, -, result, only⟩ := unique exactDividend exactDivisor 1 rfl
    have computed : a.divRem? exactArithmetic b =
        some (⟨[(0, .exact (-1 / 4)), (1, .exact (1 / 2))]⟩, ⟨[(0, .exact (5 / 4))]⟩) := by
      decide +kernel
    rw [computed, Option.some.injEq, Prod.mk.injEq] at result
    obtain ⟨rfl, rfl⟩ := result
    exact only

end Polynomial

end SymbolicAlgebra
