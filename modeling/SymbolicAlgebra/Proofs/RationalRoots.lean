import SymbolicAlgebra.Proofs.ChangeFlags
import SymbolicAlgebra.Proofs.IntegerPolynomials
import SymbolicAlgebra.Proofs.Powers

open Polynomial

/-! Rational roots of integer polynomials are found wherever there are any: the candidates hold all
of them, and the linear factor of a root divides without remainder and leaves integer coefficients. -/
namespace SymbolicAlgebra

/-! ## Divisors -/

theorem subset_divisorsFrom (n fuel d : Nat) (found : List Nat) :
    found ⊆ divisorsFrom n fuel d found := by
  fun_induction divisorsFrom n fuel d found with
  | case1 => exact List.Subset.refl _
  | case2 => exact List.Subset.refl _
  | case3 fuel d found _ _ ih =>
    refine fun k member => ih ?_
    split
    · exact List.mem_cons_of_mem _ member
    · exact List.mem_cons_of_mem _ (List.mem_cons_of_mem _ member)
  | case4 fuel d found _ _ ih => exact ih

/-- A divisor up to the square root is reached, and its cofactor with it. -/
theorem mem_divisorsFrom {n k : Nat} (divides : k ∣ n) (small : k * k ≤ n) {fuel d : Nat}
    (ahead : d ≤ k) (enough : k < d + fuel) (found : List Nat) :
    k ∈ divisorsFrom n fuel d found ∧ n / k ∈ divisorsFrom n fuel d found := by
  fun_induction divisorsFrom n fuel d found with
  | case1 => omega
  | case2 fuel d found past =>
    have := Nat.mul_le_mul ahead ahead
    omega
  | case3 fuel d found _ divisor ih =>
    by_cases here : d = k
    · subst here
      have added : d ∈ (if n / d = d then d :: found else d :: n / d :: found) ∧
          n / d ∈ (if n / d = d then d :: found else d :: n / d :: found) := by
        split <;> simp_all
      exact ⟨subset_divisorsFrom n fuel _ _ added.1, subset_divisorsFrom n fuel _ _ added.2⟩
    · exact ih (by omega) (by omega)
  | case4 fuel d found _ remainder ih =>
    have other : d ≠ k := by
      rintro rfl
      exact remainder (Nat.mod_eq_zero_of_dvd divides)
    exact ih (by omega) (by omega)

/-- Every positive divisor is listed: it or its cofactor is not above the square root. -/
theorem mem_positiveDivisors {m : ℤ} (nonzero : m ≠ 0) {k : Nat} (divides : (k : ℤ) ∣ m) :
    k ∈ positiveDivisors m := by
  have divisor : k ∣ m.natAbs := Int.natCast_dvd.mp divides
  have size : 0 < m.natAbs := Int.natAbs_pos.mpr nonzero
  have positive : 0 < k := Nat.pos_of_dvd_of_pos divisor size
  have bound : k ≤ m.natAbs := Nat.le_of_dvd size divisor
  by_cases small : k * k ≤ m.natAbs
  · exact (mem_divisorsFrom divisor small positive (by omega) []).1
  · have cofactor : m.natAbs / k ∣ m.natAbs := Nat.div_dvd_of_dvd divisor
    have other : 0 < m.natAbs / k := Nat.div_pos bound positive
    have less : m.natAbs / k ≤ m.natAbs := Nat.div_le_self _ _
    have below : m.natAbs / k < k := (Nat.div_lt_iff_lt_mul positive).mpr (by omega)
    have square : m.natAbs / k * (m.natAbs / k) ≤ m.natAbs :=
      calc m.natAbs / k * (m.natAbs / k) ≤ m.natAbs / k * k := Nat.mul_le_mul_left _ below.le
        _ ≤ m.natAbs := Nat.div_mul_le_self _ _
    have reached : m.natAbs / (m.natAbs / k) ∈ positiveDivisors m :=
      (mem_divisorsFrom cofactor square other (by omega) []).2
    rwa [Nat.div_div_self divisor size.ne'] at reached

example : positiveDivisors (-12) = [3, 4, 2, 6, 1, 12] := by decide

/-! ## Candidates -/

/-- The numerator of a root divides the constant coefficient, the denominator the leading one. -/
theorem mem_rootCandidates {leading constant : ℤ} (lead : leading ≠ 0) (last : constant ≠ 0)
    {r : ℚ} (num : r.num ∣ constant) (den : (r.den : ℤ) ∣ leading) :
    r ∈ rootCandidates leading constant := by
  have above : r.num.natAbs ∈ positiveDivisors constant :=
    mem_positiveDivisors last (Int.natAbs_dvd.mpr num)
  have below : r.den ∈ positiveDivisors leading := mem_positiveDivisors lead den
  have magnitude : mkRat r.num.natAbs r.den = |r| := by rw [Rat.abs_def, Rat.mkRat_eq_divInt]
  rw [rootCandidates, List.mem_mergeSort, List.mem_flatMap]
  refine ⟨|r|, List.mem_flatMap.mpr ⟨_, above, List.mem_map.mpr ⟨_, below, magnitude⟩⟩, ?_⟩
  rcases abs_choice r with same | opposite
  · simp [same]
  · simp [opposite]

namespace Polynomial

/-! ## Roots -/

/-- The sparse polynomial of integer coefficients. -/
theorem ofIntegers_spec {zs : List ℤ} (short : zs.length ≤ wordSize) :
    (ofDescending exactArithmetic (zs.map .ofInt)).Exact ∧
      image (Numeral.val ℚ) (ofDescending exactArithmetic (zs.map .ofInt)) =
        (integerPolynomial zs).map (Int.castRingHom ℚ) := by
  have exact : ∀ c ∈ zs.map Numeral.ofInt, c.isExact = true := by simp
  obtain ⟨valid, -, same⟩ := ofDescending_spec (numeralCoefficients_ring (K := ℚ)) exact
    (by rwa [List.length_map])
  exact ⟨valid, same.trans (map_integerPolynomial zs).symm⟩

/-- Coefficients are integers where those of the image are. -/
theorem Exact.coeff_eq_ofInt {p : Polynomial Numeral} (h : p.Exact) {f : ℤ[X]}
    (same : image (Numeral.val ℚ) p = f.map (Int.castRingHom ℚ)) (n : ℕ) :
    p.coeff exactArithmetic n = .ofInt (f.coeff n) := by
  have law := numeralCoefficients_ring (K := ℚ)
  obtain ⟨r, exact⟩ := Numeral.exists_exact (coeff_mem law h n)
  have value := coeff_image law h n
  rw [same, Polynomial.coeff_map, exact, Numeral.val_exact, Rat.cast_id, eq_intCast] at value
  rw [exact, ← value, Numeral.ofInt]

theorem Exact.isZero_evaluate {p : Polynomial Numeral} (h : p.Exact) {f : ℤ[X]}
    (same : image (Numeral.val ℚ) p = f.map (Int.castRingHom ℚ)) (r : ℚ) :
    (p.evaluate exactArithmetic (.exact r)).isZero = true ↔ Polynomial.aeval r f = 0 := by
  obtain ⟨s, exact⟩ := Numeral.exists_exact (h.evaluate_exact r)
  have value : (p.evaluate exactArithmetic (.exact r)).val ℚ = _ :=
    evaluate_spec (numeralCoefficients_ring (K := ℚ)) h rfl
  rw [exact, Numeral.val_exact, Numeral.val_exact, Rat.cast_id, Rat.cast_id, same,
    Polynomial.eval_map, ← algebraMap_int_eq, ← Polynomial.aeval_def] at value
  rw [exact, Numeral.isZero_exact, value]

variable {z : ℤ} {zs : List ℤ}

/-- The numerator of a root divides the last coefficient, its denominator the first. -/
theorem dvd_of_root (lead : z ≠ 0) {r : ℚ}
    (root : Polynomial.aeval r (integerPolynomial (z :: zs)) = 0) :
    r.num ∣ (integerPolynomial (z :: zs)).coeff 0 ∧ (r.den : ℤ) ∣ z := by
  obtain ⟨g, whole⟩ := (linearFactor_dvd_iff r _).mpr root
  constructor
  · rw [whole, Polynomial.mul_coeff_zero, coeff_linearFactor_zero, neg_mul]
    exact Dvd.intro _ (mul_neg _ _)
  · rw [← leadingCoeff_integerPolynomial zs lead, whole, Polynomial.leadingCoeff_mul,
      leadingCoeff_linearFactor]
    exact dvd_mul_right _ _

theorem isZero_ofInt {n : ℤ} (nonzero : n ≠ 0) : exactArithmetic.isZero (.ofInt n) = false :=
  Bool.eq_false_of_not_eq_true ((Numeral.isZero_ofInt n).not.mpr nonzero)

theorem rationalRoot?_ofIntegers (lead : z ≠ 0) (short : (z :: zs).length ≤ wordSize) :
    let p := ofDescending exactArithmetic ((z :: zs).map .ofInt)
    let constant := (integerPolynomial (z :: zs)).coeff 0
    rationalRoot? p =
      if constant = 0 then some 0
      else
        (rootCandidates z constant).find? fun r => (p.evaluate exactArithmetic (.exact r)).isZero := by
  obtain ⟨valid, same⟩ := ofIntegers_spec short
  have leading : (ofDescending exactArithmetic ((z :: zs).map .ofInt)).leading exactArithmetic =
      .ofInt z := leading_ofDescending _ (isZero_ofInt lead)
  unfold rationalRoot?
  dsimp only
  rw [leading, valid.coeff_eq_ofInt same, Numeral.integer?_ofInt, Numeral.integer?_ofInt]

/-- A rational root is found if there is one, and what is found is one. -/
theorem rationalRoot?_spec (lead : z ≠ 0) (short : (z :: zs).length ≤ wordSize) :
    let found := rationalRoot? (ofDescending exactArithmetic ((z :: zs).map .ofInt))
    (∀ r ∈ found, Polynomial.aeval r (integerPolynomial (z :: zs)) = 0) ∧
      ((∃ r : ℚ, Polynomial.aeval r (integerPolynomial (z :: zs)) = 0) → found.isSome = true) := by
  obtain ⟨valid, same⟩ := ofIntegers_spec short
  rw [rationalRoot?_ofIntegers lead short]
  dsimp only
  split
  · rename_i zero
    refine ⟨fun r member => ?_, fun _ => rfl⟩
    cases member
    rw [← Polynomial.coeff_zero_eq_aeval_zero', zero, map_zero]
  · rename_i nonzero
    refine ⟨fun r member => ?_, fun ⟨r, root⟩ => ?_⟩
    · have passed := List.find?_some member
      exact (valid.isZero_evaluate same r).mp passed
    · obtain ⟨num, den⟩ := dvd_of_root lead root
      exact List.find?_isSome.mpr ⟨r, mem_rootCandidates lead nonzero num den,
        (valid.isZero_evaluate same r).mpr root⟩

/-! ## Division by a linear factor -/

theorem integerPolynomial_linear (r : ℚ) :
    integerPolynomial [(r.den : ℤ), -r.num] = linearFactor r := by
  simp only [integerPolynomial, linearFactor, List.length_cons, List.length_nil, zero_add, pow_zero,
    mul_one, pow_one]
  rw [add_comm]

theorem degree?_ofIntegers (lead : z ≠ 0) :
    (ofDescending exactArithmetic ((z :: zs).map .ofInt)).degree? = some zs.length := by
  have notZero := isZero_ofInt lead
  simp [degree?, ofDescending, monomial, notZero]

/-- The division by the linear factor of a root leaves nothing, and the quotient has integer
coefficients. -/
theorem divRem?_linearFactor (short : zs.length ≤ wordSize) {r : ℚ}
    (root : Polynomial.aeval r (integerPolynomial zs) = 0) :
    ∃ quotient : Polynomial Numeral, quotient.Exact ∧
      (∀ n, (quotient.coeff exactArithmetic n).isInteger = true) ∧
      (ofDescending exactArithmetic (zs.map .ofInt)).divRem? exactArithmetic
        (ofDescending exactArithmetic [.ofInt r.den, .ofInt (-r.num)]) = some (quotient, zero) := by
  have law := numeralCoefficients_ring (K := ℚ)
  have nonzero : (r.den : ℤ) ≠ 0 := Int.natCast_ne_zero.mpr r.den_nz
  obtain ⟨g, factored⟩ := (linearFactor_dvd_iff r _).mpr root
  obtain ⟨valid, same⟩ := ofIntegers_spec short
  have divisorShort : [(r.den : ℤ), -r.num].length ≤ wordSize := one_lt_wordSize
  obtain ⟨divisorValid, divisorSame⟩ := ofIntegers_spec divisorShort
  have known : (ofDescending exactArithmetic ([(r.den : ℤ), -r.num].map .ofInt)).degree? = some 1 :=
    degree?_ofIntegers nonzero
  obtain ⟨quotient, remainder, quotientValid, remainderValid, division, unique⟩ :=
    valid.divRem?_unique divisorValid known
  obtain ⟨whole, small⟩ := (unique quotient remainder quotientValid remainderValid).mpr ⟨rfl, rfl⟩
  have below : (image (Numeral.val ℚ) remainder).degree < (1 : ℕ) := degree_termsImage_lt small
  have lower := below.trans_le
    (le_degree_image law divisorValid known (divisorValid.val_leading_ne_zero known))
  have exactly : image (Numeral.val ℚ) (ofDescending exactArithmetic (zs.map .ofInt)) =
      g.map (Int.castRingHom ℚ) * image (Numeral.val ℚ)
        (ofDescending exactArithmetic ([(r.den : ℤ), -r.num].map .ofInt)) + 0 := by
    rw [same, divisorSame, integerPolynomial_linear, factored, Polynomial.map_mul, add_zero,
      mul_comm]
  have bottom := (Polynomial.degree_zero (R := ℚ)).trans_lt (bot_le.trans_lt lower)
  obtain ⟨quotientEq, remainderEq⟩ := eq_div_mod_of_degree_lt whole lower
  obtain ⟨factorEq, nothing⟩ := eq_div_mod_of_degree_lt exactly bottom
  have integral := quotientValid.coeff_eq_ofInt (quotientEq.trans factorEq.symm)
  have empty : remainder = zero :=
    (eq_iff_image_eq remainderValid zero_valid).mpr (remainderEq.trans nothing.symm)
  refine ⟨quotient, quotientValid, fun n => ?_, ?_⟩
  · rw [integral n, Numeral.isInteger_ofInt]
  · rw [← empty]
    exact division

end Polynomial

/-! ## Factoring -/

/-- A tree is the linear factor of a rational root times a quotient with integer coefficients, and
has the values of the polynomial. -/
def IsRootFactoring (x : String) (f : ℤ[X]) (e : Expr) : Prop :=
  ∃ (r : ℚ) (quotient : Polynomial Numeral), Polynomial.aeval r f = 0 ∧ quotient.Exact ∧
    (∀ n, (quotient.coeff Polynomial.exactArithmetic n).isInteger = true) ∧
    e = .product [linearTree x r.den (-r.num),
      (quotient.toExpr numeralCoefficients x).differenceForm] ∧
    ∀ R : Reading ℚ, R.Defined e ∧ R.val e = Polynomial.aeval (R.ident x) f

variable {e : Expr} {x : String}

theorem factorRationalRoot_ofIntegers {z : ℤ} {zs : List ℤ} (only : e.unknowns = [x])
    (read : e.coefficients? true = some ((z :: zs).map .ofInt)) (several : 2 ≤ zs.length) :
    (∃ factored, IsRootFactoring x (integerPolynomial (z :: zs)) factored ∧
        factorRationalRoot e = .new factored) ∨
      (¬∃ r : ℚ, Polynomial.aeval r (integerPolynomial (z :: zs)) = 0) ∧
        factorRationalRoot e = .same e := by
  have lead := lead_ne_zero read (by rintro rfl; simp at several)
  have long : ¬ ((z :: zs).map Numeral.ofInt).length < 3 := by simpa using several
  have words : (z :: zs).length ≤ wordSize := by simpa using length_coefficients?_le read
  obtain ⟨sound, complete⟩ := Polynomial.rationalRoot?_spec lead words
  unfold factorRationalRoot
  dsimp only
  rw [unknownAndCoefficients?_eq_some.mpr ⟨only, read⟩]
  dsimp only
  rw [if_neg long]
  cases found : rationalRoot? (.ofDescending Polynomial.exactArithmetic ((z :: zs).map .ofInt)) with
  | none =>
    refine .inr ⟨fun exists_root => ?_, rfl⟩
    have := complete exists_root
    rw [found] at this
    cases this
  | some r =>
    have root := sound r found
    obtain ⟨quotient, valid, integral, division⟩ := Polynomial.divRem?_linearFactor words root
    have exact : ∀ c ∈ (z :: zs).map Numeral.ofInt, c.isExact = true := by simp
    refine .inl ⟨_, ⟨r, quotient, root, valid, integral, rfl, fun R => ?_⟩, ?_⟩
    · rw [aeval_integerPolynomial, ← factorOfRoot_eq_linearTree]
      exact Reading.linearFactor_spec exact (by rwa [List.length_map]) division rfl
    · dsimp only
      rw [division, ← factorOfRoot_eq_linearTree]
      rfl

end SymbolicAlgebra
