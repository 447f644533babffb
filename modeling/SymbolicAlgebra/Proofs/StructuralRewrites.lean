import SymbolicAlgebra.Proofs.Expansion
import SymbolicAlgebra.Proofs.Powers
import SymbolicAlgebra.Proofs.RestoredDifferences
import SymbolicAlgebra.Quotient.CommonDenominator
import SymbolicAlgebra.Quotient.Reciprocal
import SymbolicAlgebra.Rule.OperandOrder

/-! The passes that only write a tree in another form keep its value: differences and sums, quotients
and products, expansion, distribution, common denominators and the order of operands. -/
namespace SymbolicAlgebra

/-- The passes that write a tree in another form and evaluate nothing. -/
def structuralRewrites : List (Expr → Step) :=
  [toSums, toDifferences, toProducts, toQuotients, expandPowers, expandQuotients, distribute,
    distributeFully, toCommonDenominator, numbersFirst, positiveFirst]

/-- A repeated pass keeps what one round of it keeps. -/
theorem repeatPass_induction {P : Expr → Expr → Prop} {pass : Expr → Step} (refl : ∀ e, P e e)
    (trans : ∀ {a b c}, P a b → P b c → P a c) (once : ∀ e, P e (pass e).expr) (rounds : Nat)
    (e : Expr) : P e (repeatPass pass rounds e).expr := by
  induction rounds generalizing e with
  | zero => exact refl e
  | succ rounds ih =>
    rw [repeatPass]
    split
    · exact trans (once e) (ih _)
    · exact once e

namespace Reading

variable {K : Type*} [Field K] {R : Reading K}

/-! ## Quotients and products -/

section Reciprocals

variable [CharZero K]

/-- What stands below the bar for a power with a negative exponent is the inverse of the power. -/
theorem invertExponent_spec {e : Expr} (h : R.Defined e) (negative : e.hasNegativeExponent = true) :
    R.Defined e.invertExponent ∧ R.val e.invertExponent ≠ 0 ∧
      R.val e = (R.val e.invertExponent)⁻¹ := by
  unfold Expr.hasNegativeExponent at negative
  split at negative
  · rename_i base x
    obtain ⟨defined, exact, n, integer, bound⟩ := (defined_node_power _ _).mp h
    obtain ⟨r, rfl⟩ := Numeral.exists_exact exact
    have same : r = n := by
      rw [val_exact] at integer
      exact_mod_cast integer.symm
    subst same
    have below : n < 0 := by simpa using negative
    have nonzero : R.val base ≠ 0 := fun zero => absurd (bound zero) (by omega)
    have value : R.val (.pow base (.number (.exact n))) = R.val base ^ n := val_pow_exact base n
    unfold Expr.invertExponent
    dsimp only
    split
    · rename_i minus
      have : n = -1 := by
        have cast : (n : Rat) = ((-1 : ℤ) : Rat) := Numeral.exact.inj minus
        exact_mod_cast cast
      subst this
      exact ⟨defined, nonzero, value.trans (zpow_neg_one _)⟩
    · have opposite : (Numeral.exact (n : Rat)).neg = .exact ((-n : ℤ) : Rat) := by simp
      rw [opposite]
      refine ⟨(defined_pow_exact _ _).mpr ⟨defined, fun zero => absurd zero nonzero⟩, ?_, ?_⟩
      · rw [val_pow_exact]
        exact zpow_ne_zero _ nonzero
      · rw [val_pow_exact, zpow_neg, inv_inv]
        exact value
  · cases negative

/-- A factor that goes below the bar is the inverse of what it leaves there. -/
theorem belowBar_spec {e : Expr} (h : R.Defined e) (reciprocal : e.isReciprocal = true) :
    R.Defined e.belowBar ∧ R.val e.belowBar ≠ 0 ∧ R.val e = (R.val e.belowBar)⁻¹ := by
  unfold Expr.isReciprocal at reciprocal
  split at reciprocal
  · rename_i n d
    obtain ⟨hn, hd, nonzero⟩ := (defined_node_divide n d).mp h
    exact ⟨hd, nonzero, by rw [val_node_divide, val_of_isOne hn reciprocal, one_div]; rfl⟩
  · rename_i other
    rw [Expr.belowBar.eq_2 e other]
    exact invertExponent_spec h reciprocal

/-- Together, the factors that go below the bar are the inverse of what they leave there. -/
theorem prod_belowBar {xs : List Expr} (h : ∀ x ∈ xs, R.Defined x)
    (reciprocal : ∀ x ∈ xs, x.isReciprocal = true) :
    (∀ y ∈ xs.map Expr.belowBar, R.Defined y) ∧ ((xs.map Expr.belowBar).map R.val).prod ≠ 0 ∧
      (xs.map R.val).prod = ((xs.map Expr.belowBar).map R.val).prod⁻¹ := by
  induction xs with
  | nil => simp
  | cons x xs ih =>
    obtain ⟨hx, hxs⟩ := List.forall_mem_cons.mp h
    obtain ⟨rx, rxs⟩ := List.forall_mem_cons.mp reciprocal
    obtain ⟨defined, nonzero, inverse⟩ := belowBar_spec hx rx
    obtain ⟨tail, product, rest⟩ := ih hxs rxs
    simp only [List.map_cons, List.prod_cons]
    exact ⟨List.forall_mem_cons.mpr ⟨defined, tail⟩, mul_ne_zero nonzero product,
      by rw [inverse, rest, mul_inv]⟩

theorem productToQuotient_keeps (e : Expr) : R.Keeps e (productToQuotient e).expr := by
  intro h
  unfold productToQuotient
  split
  · rename_i xs
    split
    · rw [defined_node_multiply] at h
      rw [List.partition_eq_filter_filter]
      have reciprocal : ∀ x ∈ xs.filter Expr.isReciprocal, x.isReciprocal = true :=
        fun x member => (List.mem_filter.mp member).2
      obtain ⟨below, nonzero, inverse⟩ := prod_belowBar (defined_filter h) reciprocal
      have split := prod_filter_mul_prod_filter_not (R := R) Expr.isReciprocal xs
      simp only [Step.new, defined_div, defined_product, val_product, val_div, val_node_multiply]
      refine ⟨⟨defined_filter h, below, nonzero⟩, ?_⟩
      rw [← split, inverse, div_eq_inv_mul]
      rfl
    · exact ⟨h, rfl⟩
  · split
    · rename_i negative
      obtain ⟨defined, nonzero, inverse⟩ := invertExponent_spec h negative
      simp only [Step.new, defined_div, val_div, defined_one, val_one]
      exact ⟨⟨trivial, defined, nonzero⟩, by rw [inverse, one_div]⟩
    · exact ⟨h, rfl⟩

theorem toQuotients_keeps (e : Expr) : R.Keeps e (toQuotients e).expr :=
  everywhere_keeps productToQuotient_keeps e

theorem quotientToProduct_keeps (e : Expr) : R.Keeps e (quotientToProduct e).expr := by
  intro h
  unfold quotientToProduct
  split
  · rename_i n d
    obtain ⟨hn, hd, nonzero⟩ := (defined_node_divide n d).mp h
    have power : R.Defined (.pow d (.ofInt (-1))) :=
      (defined_pow_exact d (-1)).mpr ⟨hd, fun zero => absurd zero nonzero⟩
    have inverse : R.val (.pow d (.ofInt (-1))) = (R.val d)⁻¹ :=
      (val_pow_exact d (-1)).trans (zpow_neg_one _)
    exact ⟨defined_times hn power, by
      rw [Step.new, val_times hn power, inverse, val_node_divide, div_eq_mul_inv]⟩
  · exact ⟨h, rfl⟩

theorem toProducts_keeps (e : Expr) : R.Keeps e (toProducts e).expr :=
  everywhere_keeps quotientToProduct_keeps e

end Reciprocals

/-! ## Quotients of sums -/

theorem splitNumerator_keeps (e : Expr) : R.Keeps e (splitNumerator e).expr := by
  intro h
  unfold splitNumerator
  split
  · rename_i terms d
    obtain ⟨ht, hd, nonzero⟩ := (defined_node_divide _ d).mp h
    rw [defined_node_add] at ht
    simp only [Step.new, defined_sum, val_sum, List.forall_mem_map, defined_div, val_node_divide,
      val_node_add]
    refine ⟨fun t member => ⟨ht t member, hd, nonzero⟩, ?_⟩
    simp only [List.map_map, Function.comp_def, val_div, div_eq_mul_inv]
    rw [List.sum_map_mul_right]
  · exact ⟨h, rfl⟩

theorem expandQuotients_keeps (e : Expr) : R.Keeps e (expandQuotients e).expr :=
  everywhere_keeps splitNumerator_keeps e

/-- Over the common denominator stands the addend times the denominator. -/
theorem overDenominator_spec {d e : Expr} (hd : R.Defined d) (h : R.Defined e) :
    R.Defined (overDenominator d e) ∧ R.val (overDenominator d e) = R.val e * R.val d := by
  unfold overDenominator
  split
  · rename_i n b
    obtain ⟨hn, hb, nonzero⟩ := (defined_node_divide n b).mp h
    split
    · rename_i same
      subst same
      exact ⟨hn, (div_mul_cancel₀ _ nonzero).symm⟩
    · exact ⟨defined_times h hd, val_times h hd⟩
  · exact ⟨defined_times h hd, val_times h hd⟩

theorem commonDenominatorNode_keeps (e : Expr) : R.Keeps e (commonDenominatorNode e).expr := by
  intro h
  unfold commonDenominatorNode
  split
  · rename_i xs
    rw [defined_node_add] at h
    split
    · rename_i n d found
      obtain ⟨x, member, sides⟩ := List.exists_of_findSome?_eq_some found
      rw [Expr.eq_node_of_sides? sides] at member
      obtain ⟨-, hd, nonzero⟩ := (defined_node_divide n d).mp (h _ member)
      have each := fun x member => overDenominator_spec hd (h x member)
      simp only [Step.new, defined_div, defined_sum, val_div, val_sum, List.forall_mem_map,
        val_node_add, List.map_map]
      refine ⟨⟨fun x member => (each x member).1, hd, nonzero⟩, ?_⟩
      have values : xs.map (R.val ∘ overDenominator d) = xs.map fun x => R.val x * R.val d :=
        List.map_congr_left fun x member => (each x member).2
      rw [values, List.sum_map_mul_right, mul_div_cancel_right₀ _ nonzero]
    · exact ⟨(defined_node_add xs).mpr h, rfl⟩
  · exact ⟨h, rfl⟩

theorem toCommonDenominator_keeps (e : Expr) : R.Keeps e (toCommonDenominator e).expr :=
  everywhere_keeps commonDenominatorNode_keeps e

/-! ## Products -/

theorem numbersFirstNode_keeps (e : Expr) : R.Keeps e (numbersFirstNode e).expr := by
  unfold numbersFirstNode
  split
  · split
    · rw [List.partition_eq_filter_filter]
      exact multiply_keeps_of_perm (List.filter_append_perm _ _)
    · exact Keeps.refl _
  · exact Keeps.refl _

theorem numbersFirst_keeps (e : Expr) : R.Keeps e (numbersFirst e).expr :=
  everywhere_keeps numbersFirstNode_keeps e

theorem distributeNode_keeps (e : Expr) : R.Keeps e (distributeNode e).expr := by
  unfold distributeNode
  split
  · split
    · rename_i split
      split
      · exact spread_keeps split
      · exact Keeps.refl _
    · exact Keeps.refl _
  · exact Keeps.refl _

theorem distribute_keeps (e : Expr) : R.Keeps e (distribute e).expr :=
  everywhere_keeps distributeNode_keeps e

variable [CharZero K]

theorem distributionRound_keeps (laws : R.Splices) (e : Expr) :
    R.Keeps e (distributionRound e).expr :=
  (everywhere_keeps (expandPower_keeps maxTermCount) e).trans <|
  (distribute_keeps _).trans <|
  flatten_keeps laws _

theorem distributeFully_keeps (laws : R.Splices) (e : Expr) : R.Keeps e (distributeFully e).expr :=
  repeatPass_induction Keeps.refl Keeps.trans (distributionRound_keeps laws) _ e

/-- Writing a tree in another form keeps its value, whatever the identifiers stand for and whatever
values calls have, and leaves no difference where differences are written as sums. -/
theorem structuralRewrites_value (laws : R.Splices) (e : Expr) :
    (∀ rewrite ∈ structuralRewrites, R.Defined e →
      R.Defined (rewrite e).expr ∧ R.val (rewrite e).expr = R.val e) ∧
    (toSums e).expr.AllParts fun part => part.sides? .subtract = none := by
  refine ⟨?_, e.summed_hasNoDifference⟩
  simp only [structuralRewrites, List.forall_mem_cons, List.not_mem_nil, false_imp_iff,
    implies_true, and_true]
  exact ⟨toSums_keeps e, toDifferences_keeps e, toProducts_keeps e, toQuotients_keeps e,
    expandPowers_keeps e, expandQuotients_keeps e, distribute_keeps e, distributeFully_keeps laws e,
    toCommonDenominator_keeps e, numbersFirst_keeps e, positiveFirst_keeps e⟩

/-- Every identifier is 2, the logarithm has a value at 2 alone. -/
def logarithmAtTwo : Reading ℚ where
  ident _ := 2
  unit? := none
  call f vs := if f = .ln ∧ vs = [2] then some 7 else none
  integral _ _ := none

/-- The quotient `(x - ln(y)) * (x + 1)^2 / x^(-2)`. -/
def mixedQuotient : Expr :=
  .div (.mul (.sub (.ident "x") (.ln (.ident "y"))) (.pow (.add (.ident "x") .one) (.ofInt 2)))
    (.pow (.ident "x") (.ofInt (-2)))

theorem structuralRewrites_value_of_mixedQuotient :
    logarithmAtTwo.Splices ∧ logarithmAtTwo.Defined mixedQuotient ∧
      (∀ rewrite ∈ structuralRewrites, logarithmAtTwo.Defined (rewrite mixedQuotient).expr ∧
        logarithmAtTwo.val (rewrite mixedQuotient).expr = logarithmAtTwo.val mixedQuotient) ∧
      (toSums mixedQuotient).expr.AllParts fun part => part.sides? .subtract = none := by
  have laws : logarithmAtTwo.Splices := OnlyArithmetic.splices fun _ _ => rfl
  have squared : logarithmAtTwo.Defined (.pow (.add (.ident "x") .one) (.ofInt 2)) :=
    (defined_pow_exact _ 2).mpr ⟨by simp, fun _ => by decide⟩
  have below : logarithmAtTwo.Defined (.pow (.ident "x") (.ofInt (-2))) :=
    (defined_pow_exact _ (-2)).mpr ⟨trivial, by simp [logarithmAtTwo]⟩
  have nonzero : logarithmAtTwo.val (.pow (.ident "x") (.ofInt (-2))) ≠ 0 := by
    rw [show Expr.ofInt (-2) = .number (.exact ((-2 : ℤ) : ℚ)) from rfl, val_pow_exact]
    exact zpow_ne_zero _ (by simp [logarithmAtTwo])
  have logarithm : logarithmAtTwo.Defined (.ln (.ident "y")) := by
    simp [Expr.ln, Expr.apply, logarithmAtTwo]
  have defined : logarithmAtTwo.Defined mixedQuotient := by
    rw [mixedQuotient, defined_div, defined_mul, defined_sub]
    exact ⟨⟨⟨trivial, logarithm⟩, squared⟩, below, nonzero⟩
  obtain ⟨values, differences⟩ := structuralRewrites_value laws mixedQuotient
  exact ⟨laws, defined, fun rewrite member => values rewrite member defined, differences⟩

end Reading

end SymbolicAlgebra
