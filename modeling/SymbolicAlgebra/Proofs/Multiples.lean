import SymbolicAlgebra.Product.Coefficient
import SymbolicAlgebra.Proofs.Cancellation

/-! A term is its numeral coefficient times the rest of it. -/
namespace SymbolicAlgebra

namespace Reading

variable {K : Type*} [Field K] {R : Reading K}

theorem scaleWhole_spec (r : Rat) {e : Expr} (h : R.Defined e) :
    R.Defined (.scaleWhole (.exact r) e) ∧ R.val (.scaleWhole (.exact r) e) = r * R.val e := by
  fun_induction Expr.scaleWhole (.exact r) e with
  | case1 upper lower zero => exact ⟨defined_zero, by simp [(Numeral.isZero_exact r).mp zero]⟩
  | case2 upper lower other one => exact ⟨h, by simp [(Numeral.isOne_exact r).mp one]⟩
  | case3 upper lower other others ih =>
    obtain ⟨hu, hl, nonzero⟩ := (defined_node_divide upper lower).mp h
    obtain ⟨defined, value⟩ := ih hu
    refine ⟨(defined_div _ _).mpr ⟨defined, hl, nonzero⟩, ?_⟩
    rw [val_div, value, val_node_divide, mul_div_assoc]
  | case4 rest other zero => exact ⟨defined_zero, by simp [(Numeral.isZero_exact r).mp zero]⟩
  | case5 rest other others one => exact ⟨h, by simp [(Numeral.isOne_exact r).mp one]⟩
  | case6 rest other others another one => exact ⟨rfl, by simp [val_of_isOne h one]⟩
  | case7 other others another factors =>
    rw [defined_node_multiply] at h
    exact ⟨(defined_product _).mpr (List.forall_mem_cons.mpr ⟨rfl, h⟩), by simp⟩
  | case8 => exact ⟨(defined_product _).mpr (by simpa using h), by simp⟩

theorem scaleWhole_ofInt_spec (n : Int) {e : Expr} (h : R.Defined e) :
    R.Defined (.scaleWhole (.ofInt n) e) ∧ R.val (.scaleWhole (.ofInt n) e) = n * R.val e := by
  have spec := scaleWhole_spec n h
  rwa [Rat.cast_intCast] at spec

variable [CharZero K]

theorem scale_spec (r : Rat) {e : Expr} (h : R.Defined e) :
    R.Defined (.scale (.exact r) e) ∧ R.val (.scale (.exact r) e) = r * R.val e := by
  have den : ((r.den : ℤ) : K) ≠ 0 := by simp
  have ratio : (r.num : K) / ((r.den : ℤ) : K) = r := by
    rw [Int.cast_natCast]
    exact (Rat.cast_def r).symm
  unfold Expr.scale
  split
  · rename_i num bottom fraction
    simp only [Numeral.fraction?, Option.ite_none_left_eq_some, Option.some.injEq,
      Prod.mk.injEq] at fraction
    obtain ⟨-, rfl, rfl⟩ := fraction
    split
    · rename_i upper lower
      obtain ⟨hu, hl, nonzero⟩ := (defined_node_divide upper lower).mp h
      obtain ⟨above, aboveValue⟩ := scaleWhole_ofInt_spec r.num hu
      obtain ⟨below, belowValue⟩ := scaleWhole_ofInt_spec r.den hl
      refine ⟨(defined_div _ _).mpr ⟨above, below, ?_⟩, ?_⟩
      · rw [belowValue]
        exact mul_ne_zero den nonzero
      · rw [val_div, aboveValue, belowValue, mul_div_mul_comm, ratio, val_node_divide]
    · obtain ⟨above, value⟩ := scaleWhole_ofInt_spec r.num h
      refine ⟨(defined_div _ _).mpr ⟨above, defined_ofInt _, by simp⟩, ?_⟩
      rw [val_div, val_ofInt, value, mul_div_right_comm, ratio]
  · exact scaleWhole_spec r h

theorem quotientMultiple_spec {a b : Rat} {t u : Expr} (ht : R.Defined t) (hu : R.Defined u)
    (nonzero : (b : K) * R.val u ≠ 0) :
    ∃ r, (Expr.quotientMultiple (.exact a, t) (.exact b, u)).1 = .exact r ∧
      R.Defined (Expr.quotientMultiple (.exact a, t) (.exact b, u)).2 ∧
      (r : K) * R.val (Expr.quotientMultiple (.exact a, t) (.exact b, u)).2 =
        a * R.val t / (b * R.val u) := by
  obtain ⟨coefficient, rest⟩ := mul_ne_zero_iff.mp nonzero
  have divisor : b ≠ 0 := fun zero => coefficient (by simp [zero])
  have whole : (Numeral.exact b).isZero = false := by simp [Numeral.isZero, divisor]
  simp only [Expr.quotientMultiple, whole, Numeral.isNaN_exact, Bool.or_self, Bool.false_eq_true,
    ↓reduceIte, Numeral.div_exact divisor]
  refine ⟨a / b, rfl, ?_⟩
  rw [Rat.cast_div, mul_div_mul_comm]
  split
  · rename_i one
    exact ⟨ht, by rw [val_of_isOne hu one, div_one]⟩
  · exact ⟨(defined_div _ _).mpr ⟨ht, hu, rest⟩, rfl⟩

/-- A term is its coefficient times the rest of it. -/
theorem asMultiple_spec {e : Expr} (h : R.Defined e) :
    ∃ r, e.asMultiple.1 = .exact r ∧ R.Defined e.asMultiple.2 ∧
      (r : K) * R.val e.asMultiple.2 = R.val e := by
  fun_induction Expr.asMultiple e with
  | case1 factors =>
    rw [defined_node_multiply] at h
    obtain ⟨r, coefficient, value⟩ := numeralProduct_spec h
    refine ⟨r, coefficient, (defined_product _).mpr (defined_filter h), ?_⟩
    rw [val_product, ← value, prod_filter_mul_prod_filter_not, val_node_multiply]
  | case2 n d ihn ihd =>
    obtain ⟨hn, hd, nonzero⟩ := (defined_node_divide n d).mp h
    obtain ⟨a, top, ht, above⟩ := ihn hn
    obtain ⟨b, bottom, hu, below⟩ := ihd hd
    rw [← below] at nonzero
    have spec := quotientMultiple_spec (a := a) ht hu nonzero
    rw [← top, ← bottom, above, below] at spec
    exact spec
  | case3 x =>
    obtain ⟨r, rfl⟩ := Numeral.exists_exact h
    exact ⟨r, rfl, defined_one, by simp⟩
  | case4 => exact ⟨1, rfl, h, by simp⟩

end Reading

end SymbolicAlgebra
