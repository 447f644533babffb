import SymbolicAlgebra.Proofs.ChangeFlags
import SymbolicAlgebra.Proofs.EquationSolutions
import SymbolicAlgebra.Proofs.RestoredDifferences

/-! An expression is split into the part that holds a symbol and the remainder moved across without
changing its value: sums and differences are split against zero, products and quotients against
one. -/
namespace SymbolicAlgebra

namespace Equation

open SymbolicAlgebra.Expr

/-- The recursion that splits an expression: a difference is split as what it is turned into with
all differences written as sums, anything else at once. -/
inductive SplitsTo (x : String) : Expr → Equation → Prop
  | converted {e : Expr} {eq : Equation} (difference : e.isNode .subtract = true)
      (next : SplitsTo x (toSums e).expr eq) : SplitsTo x e eq
  | direct {e : Expr} (other : e.isNode .subtract = false) : SplitsTo x e (splitSum x e)

/-- Products, and quotients with a denominator free of the symbol, are split by factors. -/
def splitsByFactors (x : String) : Expr → Bool
  | .node .multiply _ => true
  | .node .divide [_, d] => !d.mentions x
  | _ => false

variable {x : String} {e : Expr} {bound free : List Expr}

/-! ## The recursion -/

/-- A difference of two operands is a sum once it is converted. -/
theorem exists_addends_of_difference (wellFormed : e.IsWellFormed)
    (difference : e.isNode .subtract = true) : ∃ xs, (toSums e).expr = .node .add xs := by
  obtain ⟨operands, rfl⟩ := eq_node_of_isNode difference
  obtain ⟨a, b, rfl⟩ := List.length_eq_two.mp (wellFormed.2 rfl)
  exact ⟨_, summed_sub a b⟩

theorem ofExpr_of_difference (difference : e.isNode .subtract = true) :
    ofExpr x e = splitSum x (toSums e).expr := if_pos difference

theorem ofExpr_of_not_difference (other : e.isNode .subtract = false) :
    ofExpr x e = splitSum x e := if_neg (by rw [other]; decide)

/-- The recursion ends after one conversion at most, in the equation that is computed. -/
theorem splitsTo_iff (wellFormed : e.IsWellFormed) (eq : Equation) :
    SplitsTo x e eq ↔ eq = ofExpr x e := by
  cases difference : e.isNode .subtract with
  | false =>
    rw [ofExpr_of_not_difference difference]
    constructor
    · rintro (⟨contrary, -⟩ | -)
      · rw [difference] at contrary
        cases contrary
      · rfl
    · rintro rfl
      exact .direct difference
  | true =>
    obtain ⟨xs, sum⟩ := exists_addends_of_difference wellFormed difference
    rw [ofExpr_of_difference difference, sum]
    constructor
    · rintro (⟨-, next⟩ | contrary)
      · rw [sum] at next
        cases next with
        | converted contrary => cases contrary
        | direct => rfl
      · rw [difference] at contrary
        cases contrary
    · rintro rfl
      refine .converted difference ?_
      rw [sum]
      exact .direct rfl

/-! ## What goes to which side -/

theorem namesIn_of_free {xs : List Expr} (split : splitByMention x xs = (bound, free)) :
    ∀ y ∈ free, y.NamesIn {n | n ≠ x} := by
  rw [splitByMention_eq, Prod.mk.injEq] at split
  intro y member
  rw [← split.2, List.mem_filter, Bool.not_eq_true'] at member
  exact namesIn_others.mpr member.2

/-- What is moved across is free of the symbol. -/
theorem mentions_splitSum_right (x : String) (e : Expr) :
    (splitSum x e).right.mentions x = false := by
  rw [← namesIn_others]
  fun_cases splitSum x e with
  | case1 xs bound free split =>
    exact namesIn_sub.mpr ⟨namesIn_zero, namesIn_sum.mpr (namesIn_of_free split)⟩
  | case2 xs bound free split =>
    exact namesIn_div.mpr ⟨namesIn_one, namesIn_product.mpr (namesIn_of_free split)⟩
  | case3 n d holds => exact namesIn_zero
  | case4 n d free =>
    have denominator := namesIn_others.mpr (Bool.eq_false_iff.mpr free)
    exact namesIn_div.mpr ⟨namesIn_one, namesIn_div.mpr ⟨namesIn_one, denominator⟩⟩
  | case5 e notSum notProduct notQuotient => exact namesIn_zero

/-- All that stays on the left of a sum or a product are the operands that hold the symbol. -/
theorem exists_bound_splitSum {op : Operator} (split : op = .add ∨ op = .multiply)
    (xs : List Expr) :
    ∃ bound, (∀ y ∈ bound, y.mentions x = true) ∧
      ((splitSum x (.node op xs)).left = .sum bound ∨
        (splitSum x (.node op xs)).left = .product bound) := by
  refine ⟨xs.filter (mentions x), fun y member => (List.mem_filter.mp member).2, ?_⟩
  rcases split with rfl | rfl
  · rw [splitSum, splitByMention_eq]
    exact .inl rfl
  · rw [splitSum, splitByMention_eq]
    exact .inr rfl

/-! ## Values -/

/-- The sides of a split stand for the expression, as a quotient if it is split by factors and as a
difference otherwise. -/
theorem val_splitSum {K : Type*} [Field K] (R : Reading K) (x : String) (e : Expr) :
    R.val e =
      if splitsByFactors x e then R.val (splitSum x e).left / R.val (splitSum x e).right
      else R.val (splitSum x e).left - R.val (splitSum x e).right := by
  fun_cases splitSum x e with
  | case1 xs bound free split =>
    rw [splitByMention_eq, Prod.mk.injEq] at split
    obtain ⟨rfl, rfl⟩ := split
    simp only [splitsByFactors, Bool.false_eq_true, ↓reduceIte, Reading.val_node_add,
      Reading.val_sum, Reading.val_sub, Reading.val_zero, zero_sub, sub_neg_eq_add]
    exact (Reading.sum_filter_add_sum_filter_not (mentions x) xs).symm
  | case2 xs bound free split =>
    rw [splitByMention_eq, Prod.mk.injEq] at split
    obtain ⟨rfl, rfl⟩ := split
    simp only [splitsByFactors, ↓reduceIte, Reading.val_node_multiply, Reading.val_product,
      Reading.val_div, Reading.val_one, div_div_eq_mul_div, div_one]
    exact (Reading.prod_filter_mul_prod_filter_not (mentions x) xs).symm
  | case3 n d holds => simp [splitsByFactors, holds]
  | case4 n d free => simp [splitsByFactors, free]
  | case5 e notSum notProduct notQuotient =>
    have outside : splitsByFactors x e = false := by
      unfold splitsByFactors
      split
      · exact absurd rfl (notProduct _)
      · exact absurd rfl (notQuotient _ _)
      · rfl
    simp [outside]

/-- An expression with the operands that its operators take is split without changing the equation.
The recursion ends, the remainder is free of the symbol, every operand of a sum, a difference or a
product that stays holds it, and the sides stand for the expression: as a quotient for products and
for quotients whose denominator lacks the symbol, as a difference for everything else. -/
theorem ofExpr_isSplit {K : Type*} [Field K] (R : Reading K) (x : String)
    (wellFormed : e.AllParts IsWellFormed) :
    (∀ eq, SplitsTo x e eq ↔ eq = ofExpr x e) ∧
    (ofExpr x e).right.mentions x = false ∧
    (∀ op ∈ [Operator.add, .subtract, .multiply], e.isNode op = true →
      ∃ bound, (∀ y ∈ bound, y.mentions x = true) ∧
        ((ofExpr x e).left = .sum bound ∨ (ofExpr x e).left = .product bound)) ∧
    (R.Defined e → (ofExpr x e).HasValues R →
      (splitsByFactors x e = true →
        R.val e = R.val (ofExpr x e).left / R.val (ofExpr x e).right) ∧
      (splitsByFactors x e = false →
        R.val e = R.val (ofExpr x e).left - R.val (ofExpr x e).right)) := by
  refine ⟨splitsTo_iff wellFormed.here, ?_⟩
  cases difference : e.isNode .subtract with
  | false =>
    rw [ofExpr_of_not_difference difference]
    refine ⟨mentions_splitSum_right x e, fun op member isOp => ?_, fun _ _ => ?_⟩
    · obtain ⟨operands, rfl⟩ := eq_node_of_isNode isOp
      have other : op ≠ .subtract := by
        rintro rfl
        cases difference
      exact exists_bound_splitSum (by simpa [other] using member) operands
    · rw [val_splitSum R x e]
      exact ⟨fun factors => if_pos factors, fun terms => if_neg (by rw [terms]; decide)⟩
  | true =>
    obtain ⟨xs, sum⟩ := exists_addends_of_difference wellFormed.here difference
    obtain ⟨operands, rfl⟩ := eq_node_of_isNode difference
    rw [ofExpr_of_difference difference, sum]
    refine ⟨mentions_splitSum_right x _, fun _ _ _ => exists_bound_splitSum (.inl rfl) xs,
      fun h _ => ⟨nofun, fun _ => ?_⟩⟩
    rw [← (Reading.toSums_keeps _ h).2, sum]
    exact val_splitSum R x (.node .add xs)

/-- In `x + y - z` the symbol is left against `0 - (y - z)`, in `x * y / 3` the product against
`1 / (1 / 3)`. -/
theorem ofExpr_isSplit_of_difference :
    let difference := sub (add (.ident "x") (.ident "y")) (.ident "z")
    let quotient := div (mul (.ident "x") (.ident "y")) (ofInt 3)
    let R : Reading ℚ := .ofAssignment fun name => if name = "x" then 5 else 2
    difference.AllParts IsWellFormed ∧ quotient.AllParts IsWellFormed ∧
      R.Defined difference ∧ (ofExpr "x" difference).HasValues R ∧
      R.Defined quotient ∧ (ofExpr "x" quotient).HasValues R ∧
      SplitsTo "x" difference
        ⟨.ident "x", sub zero (add (.ident "y") (mul (ofInt (-1)) (.ident "z")))⟩ ∧
      R.val difference =
        R.val (ofExpr "x" difference).left - R.val (ofExpr "x" difference).right ∧
      R.val quotient = R.val (ofExpr "x" quotient).left / R.val (ofExpr "x" quotient).right := by
  intro difference quotient R
  have terms : difference.AllParts IsWellFormed := by decide
  have factors : quotient.AllParts IsWellFormed := by decide
  have split : ofExpr "x" difference =
      ⟨.ident "x", sub zero (add (.ident "y") (mul (ofInt (-1)) (.ident "z")))⟩ := by
    decide +kernel
  have reciprocal : ofExpr "x" quotient =
      ⟨mul (.ident "x") (.ident "y"), div one (div one (ofInt 3))⟩ := by
    decide +kernel
  have values : R.Defined difference ∧ (ofExpr "x" difference).HasValues R := by
    rw [split]
    simp [difference, HasValues]
  have ratios : R.Defined quotient ∧ (ofExpr "x" quotient).HasValues R := by
    rw [reciprocal]
    simp [quotient, HasValues]
  obtain ⟨ends, -, -, moved⟩ := ofExpr_isSplit R "x" terms
  obtain ⟨-, -, -, divided⟩ := ofExpr_isSplit R "x" factors
  exact ⟨terms, factors, values.1, values.2, ratios.1, ratios.2, (ends _).mpr split.symm,
    (moved values.1 values.2).2 rfl, (divided ratios.1 ratios.2).1 rfl⟩

end Equation

end SymbolicAlgebra
