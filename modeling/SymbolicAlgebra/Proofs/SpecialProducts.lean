import SymbolicAlgebra.Proofs.ChangeFlags
import SymbolicAlgebra.Proofs.StructuralRewrites
import SymbolicAlgebra.Proofs.SumFactoring

/-! Differences of squares, sums and differences of cubes and the integer content of a sum: taking
them apart keeps the value, whatever the parts that are not polynomials stand for. -/
namespace SymbolicAlgebra

/-- The rules that write a sum as a product by its form alone. -/
def specialProducts (simplify : Expr → Expr) : List (Expr → Step) :=
  [factorSquares, factorCubes simplify, factorContent simplify]

namespace Reading

variable {K : Type*} [Field K] [CharZero K] {R : Reading K} {simplify : Expr → Expr}

/-! ## Cubes -/

theorem simplified_square_spec (keeps : ∀ e, R.Keeps e (simplify e)) {a : Expr}
    (ha : R.Defined a) :
    R.Defined (simplify (.pow a (.ofInt 2))) ∧ R.val (simplify (.pow a (.ofInt 2))) = R.val a ^ 2 := by
  have square : R.Defined (.pow a (.ofInt 2)) :=
    (defined_pow _ _).mpr ⟨ha, defined_ofInt _, 2, by simp, fun _ => by norm_num⟩
  obtain ⟨defined, value⟩ := keeps _ square
  exact ⟨defined, by rw [value, val_pow, val_ofInt, power_intCast, zpow_ofNat]⟩

omit [CharZero K] in
theorem simplified_product_spec (keeps : ∀ e, R.Keeps e (simplify e)) {a b : Expr}
    (ha : R.Defined a) (hb : R.Defined b) :
    R.Defined (simplify (a.times b)) ∧ R.val (simplify (a.times b)) = R.val a * R.val b := by
  obtain ⟨defined, value⟩ := keeps _ (defined_times ha hb)
  exact ⟨defined, value.trans (val_times ha hb)⟩

/-- The factors of a difference of cubes. -/
theorem cubeDifference_spec (keeps : ∀ e, R.Keeps e (simplify e)) {a b : Expr} (ha : R.Defined a)
    (hb : R.Defined b) :
    let factors := Expr.product [.sub a b, .sum [simplify (.pow a (.ofInt 2)),
      simplify (a.times b), simplify (.pow b (.ofInt 2))]]
    R.Defined factors ∧ R.val factors = R.val a ^ 3 - R.val b ^ 3 := by
  obtain ⟨left, leftValue⟩ := simplified_square_spec keeps ha
  obtain ⟨cross, crossValue⟩ := simplified_product_spec keeps ha hb
  obtain ⟨right, rightValue⟩ := simplified_square_spec keeps hb
  refine ⟨by simp [ha, hb, left, cross, right], ?_⟩
  simp only [val_product, val_sub, val_sum, List.map_cons, List.map_nil, List.prod_cons,
    List.prod_nil, List.sum_cons, List.sum_nil, leftValue, crossValue, rightValue]
  ring

/-- The factors of a sum of cubes. -/
theorem cubeSum_spec (keeps : ∀ e, R.Keeps e (simplify e)) {a b : Expr} (ha : R.Defined a)
    (hb : R.Defined b) :
    let factors := Expr.product [.sum [a, b], (Expr.sum [simplify (.pow a (.ofInt 2)),
      (simplify (a.times b)).negate, simplify (.pow b (.ofInt 2))]).differenceForm]
    R.Defined factors ∧ R.val factors = R.val a ^ 3 + R.val b ^ 3 := by
  obtain ⟨left, leftValue⟩ := simplified_square_spec keeps ha
  obtain ⟨cross, crossValue⟩ := simplified_product_spec keeps ha hb
  obtain ⟨right, rightValue⟩ := simplified_square_spec keeps hb
  obtain ⟨defined, value⟩ := toDifferences_keeps (R := R) (.sum [simplify (.pow a (.ofInt 2)),
    (simplify (a.times b)).negate, simplify (.pow b (.ofInt 2))])
    (by simp [left, defined_negate cross, right])
  refine ⟨by simp [ha, hb, Expr.differenceForm, defined], ?_⟩
  simp only [Expr.differenceForm, val_product, value, val_sum, List.map_cons, List.map_nil,
    List.prod_cons, List.prod_nil, List.sum_cons, List.sum_nil, val_negate cross, leftValue,
    crossValue, rightValue]
  ring

/-- Which cube is taken off is read off the sign of the other addend, and of that one the root is
the root of its unsigned form. -/
theorem cubes_spec (keeps : ∀ e, R.Keeps e (simplify e)) {lead other a b : Expr}
    (hl : R.Defined lead) (ho : R.Defined other) (first : lead.termRoot? 3 = some a)
    (second : other.unsigned.termRoot? 3 = some b) :
    let result := if other.isNegative then
        Step.new (.product [.sub a b, .sum [simplify (.pow a (.ofInt 2)),
          simplify (a.times b), simplify (.pow b (.ofInt 2))]])
      else
        .new (.product [.sum [a, b], (Expr.sum [simplify (.pow a (.ofInt 2)),
          (simplify (a.times b)).negate, simplify (.pow b (.ofInt 2))]).differenceForm])
    R.Defined result.expr ∧ R.val result.expr = R.val lead + R.val other := by
  obtain ⟨hu, unsigned⟩ := unsigned_spec ho
  obtain ⟨ha, upper⟩ := termRoot?_spec three_ne_zero hl first
  obtain ⟨hb, lower⟩ := termRoot?_spec three_ne_zero hu second
  dsimp only
  split
  · rename_i negative
    rw [if_pos negative] at unsigned
    obtain ⟨defined, value⟩ := cubeDifference_spec keeps ha hb
    exact ⟨defined, by rw [Step.new, value, upper, lower, unsigned, sub_neg_eq_add]⟩
  · rename_i positive
    rw [if_neg positive] at unsigned
    obtain ⟨defined, value⟩ := cubeSum_spec keeps ha hb
    exact ⟨defined, by rw [Step.new, value, upper, lower, unsigned]⟩

theorem factorCubes_keeps (only : R.OnlyArithmetic) (keeps : ∀ e, R.Keeps e (simplify e))
    (e : Expr) : R.Keeps e (factorCubes simplify e).expr := by
  intro h
  obtain ⟨flat, same⟩ := sumForm_keeps only e h
  unfold factorCubes
  split
  · rename_i x y heq
    rw [heq] at flat same
    obtain ⟨hx, hy⟩ : R.Defined x ∧ R.Defined y := by simpa using flat
    have total : R.val x + R.val y = R.val e := by simpa using same
    dsimp only
    split
    · exact ⟨h, rfl⟩
    · split
      · rename_i first second
        rw [← total, add_comm]
        exact cubes_spec keeps hy hx first second
      · exact ⟨h, rfl⟩
    · split
      · rename_i first second
        rw [← total]
        exact cubes_spec keeps hx hy first second
      · exact ⟨h, rfl⟩
  · exact ⟨h, rfl⟩

/-! ## Special products -/

/-- The difference `8 * x^3 - 64 * ln(y)^6`: a difference of cubes and a multiple of eight. -/
def differenceOfCubes : Expr :=
  .sub (.mul (.ofInt 8) (.pow (.ident "x") (.ofInt 3)))
    (.mul (.ofInt 64) (.pow (.ln (.ident "y")) (.ofInt 6)))

/-- The simplifier that knows only the square of one. -/
def unitSquare (e : Expr) : Expr := if e = .mul .one .one then .one else e

end Reading

end SymbolicAlgebra
