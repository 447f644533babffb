import SymbolicAlgebra.Proofs.CallLaws

/-! Evaluating calls and drawing reciprocal functions out of denominators keep values. -/
namespace SymbolicAlgebra

/-! ## Exact roots -/

theorem pow_eq_of_exactRoot? {value n root : Nat} (h : exactRoot? value n = some root) :
    root ^ n = value := by
  unfold exactRoot? at h
  split at h
  · cases h
  · simp only [Option.ite_none_right_eq_some, Option.some.injEq] at h
    obtain ⟨power, rfl⟩ := h
    exact power

theorem pow_eq_of_exactIntRoot? {value root : Int} {n : Nat} (h : exactIntRoot? value n = some root) :
    root ^ n = value := by
  unfold exactIntRoot? at h
  split at h
  · rename_i v
    obtain ⟨k, found, rfl⟩ := Option.map_eq_some_iff.mp h
    rw [Int.ofNat_eq_natCast, Int.ofNat_eq_natCast, ← pow_eq_of_exactRoot? found, Nat.cast_pow]
  · rename_i v
    simp only [Option.ite_none_left_eq_some] at h
    obtain ⟨odd, h⟩ := h
    obtain ⟨k, found, rfl⟩ := Option.map_eq_some_iff.mp h
    have power : ((k : Int)) ^ n = ((v + 1 : Nat) : Int) := by
      exact_mod_cast pow_eq_of_exactRoot? found
    rw [Int.ofNat_eq_natCast, Odd.neg_pow (Nat.odd_iff.mpr (by omega)), power]
    rfl

/-- Roots are taken part by part. -/
theorem pow_eq_of_ratRoot? {r root : Rat} {n : Nat} (h : ratRoot? r n = some root) :
    root ^ n = r := by
  unfold ratRoot? at h
  split at h
  · rename_i num den numRoot denRoot
    cases h
    have above : ((num : Rat)) ^ n = r.num := by
      exact_mod_cast congrArg (Int.cast (R := Rat)) (pow_eq_of_exactIntRoot? numRoot)
    have below : ((den : Rat)) ^ n = r.den := by
      exact_mod_cast congrArg (Nat.cast (R := Rat)) (pow_eq_of_exactRoot? denRoot)
    rw [Rat.mkRat_eq_div, div_pow, above, below, Rat.num_div_den]
  · cases h

theorem nonneg_of_ratRoot? {r root : Rat} {n : Nat} (even : Even n)
    (h : ratRoot? r n = some root) : 0 ≤ root := by
  unfold ratRoot? at h
  split at h
  · rename_i num den numRoot denRoot
    cases h
    unfold exactIntRoot? at numRoot
    split at numRoot
    · obtain ⟨k, -, rfl⟩ := Option.map_eq_some_iff.mp numRoot
      rw [Rat.mkRat_eq_div]
      exact div_nonneg (Int.cast_nonneg (Int.natCast_nonneg k)) (Nat.cast_nonneg den)
    · rw [if_pos (Nat.even_iff.mp even)] at numRoot
      cases numRoot
  · cases h

theorem eq_append_of_splitAtReciprocal {xs before after : List Expr} {r : Expr}
    (h : splitAtReciprocal xs = some (before, r, after)) :
    ∃ x, xs = before ++ x :: after ∧ x.reciprocalCall? = some r := by
  induction xs generalizing before with
  | nil => cases h
  | cons x xs ih =>
    unfold splitAtReciprocal at h
    split at h
    · rename_i found
      cases h
      exact ⟨x, rfl, found⟩
    · obtain ⟨⟨first, s, last⟩, inside, same⟩ := Option.map_eq_some_iff.mp h
      cases same
      obtain ⟨y, rfl, found⟩ := ih inside
      exact ⟨y, rfl, found⟩

namespace Reading

variable {K : Type*} [Field K] {R : Reading K}

/-! ## Calls at special arguments -/

theorem defined_apply (f : NamedFunction) (arg : Expr) :
    R.Defined (.apply f arg) ↔ R.Defined arg ∧ ∃ v, R.call f [R.val arg] = some v := by
  simp [Expr.apply, Option.isSome_iff_exists]

theorem val_apply {f : NamedFunction} {arg : Expr} {v : K} (h : R.call f [R.val arg] = some v) :
    R.val (.apply f arg) = v := by
  simp [Expr.apply, h]

theorem defined_of_atZero? {f : NamedFunction} {e : Expr} (h : f.atZero? = some e) :
    R.Defined e := by
  unfold NamedFunction.atZero? at h
  split at h <;> cases h <;> rfl

variable [CharZero K]

theorem atNumeral?_spec (laws : R.EvaluationLaws) {f : NamedFunction} {r : Rat} {e : Expr} {v : K}
    (nonzero : r ≠ 0) (h : f.atNumeral? (.exact r) = some e) (hv : R.call f [(r : K)] = some v) :
    R.Defined e ∧ R.val e = v := by
  unfold NamedFunction.atNumeral? at h
  split at h
  · simp only [Numeral.isOne_exact, Option.ite_none_right_eq_some, Option.some.injEq] at h
    obtain ⟨rfl, rfl⟩ := h
    exact ⟨defined_zero, val_zero.trans (laws.ln_one (by simpa using hv)).symm⟩
  · simp only [Numeral.isOne_exact, Option.ite_none_right_eq_some, Option.some.injEq] at h
    obtain ⟨rfl, rfl⟩ := h
    exact ⟨defined_zero, val_zero.trans (laws.log_one (by simpa using hv)).symm⟩
  · simp only [Numeral.isNaN_exact, Bool.false_eq_true, ↓reduceIte, Option.some.injEq] at h
    subst h
    rw [laws.abs hv, Numeral.abs]
    split
    · rename_i negative
      rw [Numeral.isNegative_exact] at negative
      exact ⟨rfl, by simp [abs_of_neg negative]⟩
    · rename_i positive
      rw [Numeral.isNegative_exact, not_lt] at positive
      exact ⟨rfl, by simp [abs_of_nonneg positive]⟩
  · obtain ⟨x, root, rfl⟩ := Option.map_eq_some_iff.mp h
    obtain ⟨s, found, rfl⟩ := Option.map_eq_some_iff.mp root
    have square := pow_eq_of_ratRoot? found
    rw [sq] at square
    rw [← square, Rat.cast_mul] at hv
    exact ⟨rfl, (laws.sqrt (nonneg_of_ratRoot? even_two found) hv).symm⟩
  · simp only [Numeral.isNaN_exact, Bool.false_eq_true, ↓reduceIte, Option.some.injEq,
      Numeral.isNegative_exact] at h
    subst h
    refine ⟨defined_ofInt _, ?_⟩
    rw [laws.sgn nonzero hv, val_ofInt]
    split <;> simp
  · cases h

theorem special?_keeps (laws : R.EvaluationLaws) {f : NamedFunction} {arg e : Expr}
    (found : f.special? arg = some e) : R.Keeps (.apply f arg) e := by
  intro h
  obtain ⟨ha, v, hv⟩ := (defined_apply f arg).mp h
  rw [val_apply hv]
  unfold NamedFunction.special? at found
  split at found
  · rename_i zero
    rw [val_of_isZero ha zero] at hv
    exact ⟨defined_of_atZero? found, (laws.atZero found hv).symm⟩
  · rename_i notZero
    split at found
    · obtain ⟨r, rfl⟩ := Numeral.exists_exact ha
      have nonzero : r ≠ 0 := by simpa [Expr.isZero] using notZero
      exact atNumeral?_spec laws nonzero found hv
    · simp only [Option.ite_none_right_eq_some, Option.some.injEq] at found
      obtain ⟨rfl, rfl⟩ := found
      exact ⟨defined_one, by rw [val_one, laws.ln_e hv]⟩
    · rename_i base exponent
      simp only [Option.ite_none_right_eq_some, Option.some.injEq] at found
      obtain ⟨isE, rfl⟩ := found
      obtain rfl : base = .ident "e" := by
        cases base with
        | ident name => simpa [Expr.isIdent] using isE
        | number _ | complex _ | call _ _ | node _ _ => cases isE
      obtain ⟨-, he, n, integer, -⟩ := (defined_node_power _ _).mp ha
      rw [val_node_power, ← integer, power_intCast] at hv
      exact ⟨he, by rw [← integer, laws.ln_power hv]⟩
    · cases found

theorem evaluateCall_keeps (laws : R.EvaluationLaws) (f : NamedFunction) (arg : Expr) :
    R.Keeps (.apply f arg) (evaluateCall f arg).expr := by
  unfold evaluateCall
  split
  · rename_i found
    exact special?_keeps laws found
  · exact Keeps.refl _

/-- Odd functions let a sign pass, even ones drop it. -/
theorem evaluateUnaryCall_keeps (laws : R.EvaluationLaws) (f : NamedFunction) (arg : Expr) :
    R.Keeps (.apply f arg) (evaluateUnaryCall f arg).expr := by
  intro h
  obtain ⟨ha, v, hv⟩ := (defined_apply f arg).mp h
  obtain ⟨hu, opposite⟩ := unsigned_spec ha
  unfold evaluateUnaryCall
  split
  · rename_i odd
    rw [Bool.and_eq_true] at odd
    rw [if_pos odd.1] at opposite
    have flipped := laws.odd odd.2 hv
    rw [← opposite] at flipped
    obtain ⟨defined, value⟩ := evaluateCall_keeps laws f arg.unsigned
      ((defined_apply _ _).mpr ⟨hu, _, flipped⟩)
    refine ⟨defined_negate defined, ?_⟩
    rw [Step.new, val_negate defined, value, val_apply flipped, neg_neg, val_apply hv]
  · split
    · rename_i even
      rw [Bool.and_eq_true] at even
      rw [if_pos even.1] at opposite
      have same := laws.even even.2 hv
      rw [← opposite] at same
      obtain ⟨defined, value⟩ := evaluateCall_keeps laws f arg.unsigned
        ((defined_apply _ _).mpr ⟨hu, _, same⟩)
      exact ⟨defined, by rw [Step.new, value, val_apply same, val_apply hv]⟩
    · exact evaluateCall_keeps laws f arg h

omit [CharZero K] in
theorem evaluateLogarithm_keeps (laws : R.EvaluationLaws) (base arg : Expr) :
    R.Keeps (.call .log [base, arg]) (evaluateLogarithm base arg).expr := by
  intro h
  obtain ⟨parts, some⟩ := (defined_call _ _).mp h
  obtain ⟨v, hv⟩ := Option.isSome_iff_exists.mp some
  have value : R.val (.call .log [base, arg]) = v := by rw [val_call, hv, Option.getD_some]
  simp only [List.map_cons, List.map_nil] at hv
  unfold evaluateLogarithm
  split
  · rename_i same
    subst same
    exact ⟨defined_one, by rw [value, Step.new, val_one, laws.log_self hv]⟩
  · split
    · rename_i one
      rw [val_of_isOne (parts arg (by simp)) one] at hv
      exact ⟨defined_zero, by rw [value, Step.new, val_zero, laws.log_of_one hv]⟩
    · exact ⟨h, rfl⟩

theorem evaluateAnyCall_keeps (laws : R.EvaluationLaws) (e : Expr) :
    R.Keeps e (evaluateAnyCall e).expr := by
  unfold evaluateAnyCall
  split
  · exact evaluateUnaryCall_keeps laws _ _
  · exact evaluateLogarithm_keeps laws _ _
  · exact Keeps.refl _

theorem evaluateCalls_keeps (laws : R.EvaluationLaws) (e : Expr) :
    R.Keeps e (evaluateCalls e).expr :=
  everywhere_keeps (evaluateAnyCall_keeps laws) e

/-! ## Reciprocal functions -/

omit [CharZero K] in
theorem reciprocalCall?_spec (laws : R.EvaluationLaws) {e r : Expr} (h : R.Defined e)
    (nonzero : R.val e ≠ 0) (found : e.reciprocalCall? = some r) :
    R.Defined r ∧ R.val r = (R.val e)⁻¹ := by
  unfold Expr.reciprocalCall? at found
  split at found
  · rename_i f arg
    obtain ⟨g, reciprocal, rfl⟩ := Option.map_eq_some_iff.mp found
    obtain ⟨ha, v, hv⟩ := (defined_apply f arg).mp h
    have value : R.val (.call f [arg]) = v := val_apply hv
    rw [value] at nonzero ⊢
    have inverse := laws.reciprocal reciprocal hv nonzero
    exact ⟨(defined_apply g arg).mpr ⟨ha, _, inverse⟩, val_apply inverse⟩
  · cases found

omit [CharZero K] in
theorem raiseReciprocal_keeps (laws : R.EvaluationLaws) (n d : Expr) :
    R.Keeps (.div n d) (raiseReciprocal n d).expr := by
  intro h
  obtain ⟨hn, hd, nonzero⟩ := (defined_div n d).mp h
  unfold raiseReciprocal
  split
  · refine ⟨(defined_div _ _).mpr ⟨hn, by simpa using hd, by simpa using nonzero⟩, ?_⟩
    simp [Step.same]
  · rename_i before r after found
    obtain ⟨x, split, reciprocal⟩ := eq_append_of_splitAtReciprocal found
    have parts := (defined_factors d).mpr hd
    rw [split] at parts
    simp only [List.mem_append, List.mem_cons, or_imp, forall_and, forall_eq] at parts
    obtain ⟨hbefore, hx, hafter⟩ := parts
    have product : R.val d = (before.map R.val).prod * (R.val x * (after.map R.val).prod) := by
      rw [← prod_factors d, split, List.map_append, List.prod_append, List.map_cons, List.prod_cons]
    rw [product] at nonzero
    obtain ⟨beforeNonzero, others⟩ := mul_ne_zero_iff.mp nonzero
    obtain ⟨xNonzero, afterNonzero⟩ := mul_ne_zero_iff.mp others
    obtain ⟨hr, inverse⟩ := reciprocalCall?_spec laws hx xNonzero reciprocal
    have top : (∀ f ∈ (if n.isOne then [] else n.factors) ++ [r], R.Defined f) ∧
        (((if n.isOne then [] else n.factors) ++ [r]).map R.val).prod =
          R.val n * (R.val x)⁻¹ := by
      split
      · rename_i one
        exact ⟨by simpa using hr, by simp [inverse, val_of_isOne hn one]⟩
      · refine ⟨?_, by simp [inverse]⟩
        simpa [or_imp, forall_and, hr] using (defined_factors n).mpr hn
    have rest : ∀ f ∈ before ++ after, R.Defined f := List.forall_mem_append.mpr ⟨hbefore, hafter⟩
    simp only [Step.new]
    rw [val_div, product]
    split
    · rename_i empty
      have none : before = [] ∧ after = [] := by simpa using empty
      refine ⟨(defined_product _).mpr top.1, ?_⟩
      rw [val_product, top.2, none.1, none.2]
      simp [div_eq_mul_inv]
    · refine ⟨(defined_div _ _).mpr ⟨(defined_product _).mpr top.1, (defined_product _).mpr rest, ?_⟩,
        ?_⟩
      · rw [val_product, List.map_append, List.prod_append]
        exact mul_ne_zero beforeNonzero afterNonzero
      · rw [val_div, val_product, val_product, top.2, List.map_append, List.prod_append]
        field_simp

theorem normalizeCall_keeps (laws : R.EvaluationLaws) (e : Expr) :
    R.Keeps e (normalizeCall e).expr := by
  unfold normalizeCall
  split
  · exact raiseReciprocal_keeps laws _ _
  · exact evaluateAnyCall_keeps laws _

theorem normalizeCalls_keeps (laws : R.EvaluationLaws) (e : Expr) :
    R.Keeps e (normalizeCalls e).expr :=
  everywhere_keeps (normalizeCall_keeps laws) e

end Reading

end SymbolicAlgebra
