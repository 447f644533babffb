import SymbolicAlgebra.Product.Coefficient
import SymbolicAlgebra.Rule.Everywhere

/-! A quotient of quotients as one quotient, and sums written over the denominator of their first
quotient. -/
namespace SymbolicAlgebra

namespace Expr

mutual

/-- The number of quotient nodes. -/
def quotientCount : Expr → Nat
  | .node .divide xs => 1 + quotientCountAll xs
  | .node _ xs => quotientCountAll xs
  | .call _ xs => quotientCountAll xs
  | _ => 0

def quotientCountAll : List Expr → Nat
  | [] => 0
  | x :: xs => quotientCount x + quotientCountAll xs

end

theorem quotientCountAll_append (xs ys : List Expr) :
    quotientCountAll (xs ++ ys) = quotientCountAll xs + quotientCountAll ys := by
  induction xs with
  | nil => simp [quotientCountAll]
  | cons x xs ih => simp only [List.cons_append, quotientCountAll, ih, Nat.add_assoc]

theorem quotientCountAll_filter_le (p : Expr → Bool) (xs : List Expr) :
    quotientCountAll (xs.filter p) ≤ quotientCountAll xs := by
  induction xs with
  | nil => exact Nat.le_refl _
  | cons x xs ih =>
    rw [List.filter_cons]
    split <;> simp only [quotientCountAll] <;> omega

theorem quotientCount_product (xs : List Expr) :
    quotientCount (product xs) = quotientCountAll xs := by
  match xs with
  | [] => rfl
  | [x] => simp [product, quotientCountAll]
  | _ :: _ :: _ => rfl

theorem quotientCountAll_factors (e : Expr) : quotientCountAll e.factors = quotientCount e := by
  unfold factors
  split
  · simp [quotientCount]
  · simp [quotientCountAll]

theorem quotientCount_times_le (a b : Expr) :
    quotientCount (a.times b) ≤ quotientCount a + quotientCount b := by
  rw [times, quotientCount_product, ← quotientCountAll_factors a, ← quotientCountAll_factors b,
    ← quotientCountAll_append]
  exact quotientCountAll_filter_le _ _

end Expr

/-- Numerator and denominator of a quotient. -/
structure Quotient where
  num : Expr
  den : Expr
deriving DecidableEq

namespace Quotient

def toExpr (q : Quotient) : Expr := .div q.num q.den

/-- Moves inner divisors to the other side until neither side is a quotient. -/
def flatten : Expr → Expr → Quotient
  | .node .divide [a, b], d => flatten a (b.times d)
  | n, .node .divide [b, c] => flatten (n.times c) b
  | n, d => ⟨n, d⟩
termination_by n d => n.quotientCount + d.quotientCount
decreasing_by
  · have := Expr.quotientCount_times_le b d
    simp only [Expr.quotientCount, Expr.quotientCountAll]
    omega
  · have := Expr.quotientCount_times_le n c
    simp only [Expr.quotientCount, Expr.quotientCountAll]
    omega

end Quotient

/-- An addend over a common denominator that is left out. -/
def overDenominator (d : Expr) : Expr → Expr
  | .node .divide [n, b] => if b = d then n else (Expr.div n b).times d
  | e => e.times d

/-- A sum over the denominator of its first quotient. -/
def commonDenominatorNode : Expr → Step
  | .node .add xs =>
    match xs.findSome? (Expr.sides? .divide) with
    | some (_, d) => .new (.div (.sum (xs.map (overDenominator d))) d)
    | none => .same (.node .add xs)
  | e => .same e

def toCommonDenominator (e : Expr) : Step := everywhere commonDenominatorNode e

end SymbolicAlgebra
