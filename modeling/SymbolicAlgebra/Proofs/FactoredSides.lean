import SymbolicAlgebra.Proofs.SharedFactors
import SymbolicAlgebra.Quotient.FactoredSides

/-! Factoring the sums of a quotient keeps its value, where no shared factor is pulled out of a sum
with a term that has two powers of one of its bases and no exponent leaves the word. -/
namespace SymbolicAlgebra

/-- No exponent leaves the word while a sum is factored. -/
def sumInWords (simplify : Expr → Expr) (e : Expr) : Bool :=
  contentInWords simplify e &&
    ((factorContent simplify e).changed || (factorSquares e).changed || coefficientsInWords e)

/-- Where factoring a sum comes to its shared factor, that is sound. -/
def SumOnce (simplify : Expr → Expr) (e : Expr) : Prop :=
  (∀ attempt ∈ [factorContent simplify, factorSquares, factorQuadraticExactly, factorRationalRoot],
    (attempt e).changed = false) → Visits factorSharedNode PullsOnce e

instance (simplify : Expr → Expr) (e : Expr) : Decidable (SumOnce simplify e) :=
  inferInstanceAs (Decidable (_ → _))

/-- The sums of a quotient's sides are factored in words, and where the factored quotient is kept,
factoring them was sound. -/
def SidesOnce (simplify : Expr → Expr) (e : Expr) : Prop :=
  ∀ s ∈ e.sides? .divide, ∀ f ∈ s.1.factors ++ s.2.factors, f.isNode .add = true →
    sumInWords simplify f = true ∧
      ((reduceFactoredNode simplify e).changed = true → SumOnce simplify f)

instance (simplify : Expr → Expr) (e : Expr) : Decidable (SidesOnce simplify e) :=
  inferInstanceAs (Decidable (∀ s ∈ e.sides? .divide, _))

namespace Reading

variable {K : Type*} [Field K] [CharZero K] {R : Reading K} {simplify : Expr → Expr}

theorem factoredSum_keeps (only : R.OnlyArithmetic) (keeps : ∀ e, R.Keeps e (simplify e))
    {e : Expr} (words : sumInWords simplify e = true) (once : SumOnce simplify e) :
    R.Keeps e (factoredSum simplify e) := by
  rw [sumInWords, Bool.and_eq_true, Bool.or_eq_true, Bool.or_eq_true] at words
  obtain ⟨contentWords, words⟩ := words
  unfold factoredSum
  simp only [List.findSome?_cons, List.findSome?_nil]
  by_cases content : (factorContent simplify e).changed = true
  · simpa [content] using factorContent_keeps only keeps contentWords
  by_cases squares : (factorSquares e).changed = true
  · simpa [content, squares] using factorSquares_keeps only e
  have read : coefficientsInWords e = true := by simpa [content, squares] using words
  by_cases quadratic : (factorQuadraticExactly e).changed = true
  · simpa [content, squares, quadratic] using factorQuadraticExactly_keeps read
  by_cases root : (factorRationalRoot e).changed = true
  · simpa [content, squares, quadratic, root] using factorRationalRoot_keeps read
  have shared := factorShared_keeps (R := R) (once (by simp [content, squares, quadratic, root]))
  by_cases changed : (factorShared e).changed = true
  · simpa [content, squares, quadratic, root, changed] using shared
  · simpa [content, squares, quadratic, root, changed] using Keeps.refl e

omit [CharZero K] in
/-- Factors may be replaced by lists of factors with the same product. -/
theorem product_flatMap_keeps {g : Expr → List Expr} {xs : List Expr}
    (each : ∀ x ∈ xs, R.Keeps x (.product (g x))) :
    R.Keeps (.product xs) (.product (xs.flatMap g)) := by
  intro h
  rw [defined_product] at h
  rw [defined_product, val_product, val_product]
  induction xs with
  | nil => simp
  | cons x xs ih =>
    obtain ⟨first, rest⟩ := List.forall_mem_cons.mp h
    obtain ⟨replaced, others⟩ := List.forall_mem_cons.mp each
    obtain ⟨defined, value⟩ := ih others rest
    obtain ⟨here, same⟩ := replaced first
    rw [defined_product] at here
    rw [val_product] at same
    rw [List.flatMap_cons, List.map_append, List.prod_append, value, same, List.map_cons,
      List.prod_cons]
    exact ⟨List.forall_mem_append.mpr ⟨here, defined⟩, rfl⟩

theorem withFactoredSums_keeps (only : R.OnlyArithmetic) (keeps : ∀ e, R.Keeps e (simplify e))
    {side : Expr}
    (once : ∀ f ∈ side.factors, f.isNode .add = true →
      sumInWords simplify f = true ∧ SumOnce simplify f) :
    R.Keeps side (withFactoredSums simplify side) := by
  have factors : R.Keeps side (.product side.factors) := fun h =>
    ⟨(defined_product _).mpr ((defined_factors side).mpr h), by rw [val_product, prod_factors]⟩
  refine factors.trans (product_flatMap_keeps fun f member => ?_)
  split
  · rename_i sum
    obtain ⟨words, pulled⟩ := once f member sum
    refine (factoredSum_keeps only keeps words pulled).trans ?_
    refine (sumForm_keeps only _).trans fun h => ?_
    exact ⟨(defined_product _).mpr ((defined_factors _).mpr h), by rw [val_product, prod_factors]⟩
  · exact Keeps.refl f

omit [CharZero K] in
theorem div_keeps {n d upper lower : Expr} (above : R.Keeps n upper) (below : R.Keeps d lower) :
    R.Keeps (.div n d) (.div upper lower) := by
  intro h
  obtain ⟨hn, hd, nonzero⟩ := (defined_div n d).mp h
  obtain ⟨upperDefined, upperValue⟩ := above hn
  obtain ⟨lowerDefined, lowerValue⟩ := below hd
  rw [defined_div, val_div, val_div, upperValue, lowerValue]
  exact ⟨⟨upperDefined, lowerDefined, nonzero⟩, rfl⟩

/-- Where the factored quotient is kept, both of its sides are factored soundly. -/
theorem sides_keep (only : R.OnlyArithmetic) (keeps : ∀ e, R.Keeps e (simplify e)) {n d : Expr}
    (once : SidesOnce simplify (.div n d))
    (kept : (reduceFactoredNode simplify (.div n d)).changed = true) :
    R.Keeps n (withFactoredSums simplify n) ∧ R.Keeps d (withFactoredSums simplify d) := by
  have sound : ∀ f ∈ n.factors ++ d.factors, f.isNode .add = true →
      sumInWords simplify f = true ∧ SumOnce simplify f := fun f member sum =>
    (once (n, d) rfl f member sum).imp_right fun pulled => pulled kept
  obtain ⟨upper, lower⟩ := List.forall_mem_append.mp sound
  exact ⟨withFactoredSums_keeps only keeps upper, withFactoredSums_keeps only keeps lower⟩

/-- The quotient stays as it is, or its factored sides are cancelled. -/
theorem reduceFactoredNode_cases (simplify : Expr → Expr) (n d : Expr) :
    (reduceFactoredNode simplify (.div n d)).expr = .div n d ∨
      (reduceFactoredNode simplify (.div n d)).changed = true ∧
        (reduceFactoredNode simplify (.div n d)).expr = (Cancellation.ofSides
          (withFactoredSums simplify n) (withFactoredSums simplify d)).expr := by
  unfold reduceFactoredNode
  dsimp only [Expr.div]
  split
  · exact .inl rfl
  · split
    · rename_i reduced
      exact .inr ⟨reduced, rfl⟩
    · exact .inl rfl

theorem reduceFactoredNode_keeps (only : R.OnlyArithmetic) (law : R.LawfulUnit)
    (keeps : ∀ e, R.Keeps e (simplify e)) (e : Expr) (once : SidesOnce simplify e) :
    R.Keeps e (reduceFactoredNode simplify e).expr := by
  by_cases quotient : ∃ n d, e = .div n d
  · obtain ⟨n, d, rfl⟩ := quotient
    rcases reduceFactoredNode_cases simplify n d with same | ⟨kept, cancelled⟩
    · rw [same]
    · obtain ⟨upper, lower⟩ := sides_keep only keeps once kept
      rw [cancelled]
      exact (div_keeps upper lower).trans (reduceSharedBases_keeps law _ _)
  · have same : (reduceFactoredNode simplify e).expr = e := by
      unfold reduceFactoredNode
      split
      · exact absurd ⟨_, _, rfl⟩ quotient
      · rfl
    rw [same]

theorem reduceFactored_keeps (only : R.OnlyArithmetic) (law : R.LawfulUnit)
    (keeps : ∀ e, R.Keeps e (simplify e)) {e : Expr}
    (once : Visits (reduceFactoredNode simplify) (SidesOnce simplify) e) :
    R.Keeps e (reduceFactored simplify e).expr :=
  everywhere_keeps_of_visits (reduceFactoredNode_keeps only law keeps) once

end Reading

end SymbolicAlgebra
