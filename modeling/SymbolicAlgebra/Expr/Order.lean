import SymbolicAlgebra.Expr.Basic

/-! The canonical order of expressions: numerals, complex numerals, identifiers, calls, nodes. -/
namespace SymbolicAlgebra

namespace Expr

/-- Place of the kind of expression in the canonical order. -/
def kindRank : Expr → Nat
  | .number _ => 0
  | .complex _ => 1
  | .ident _ => 2
  | .call _ _ => 3
  | .node _ _ => 4

mutual

/-- By kind; calls by function and nodes by operator first, then operand by operand. -/
def compare : Expr → Expr → Ordering
  | .number x, .number y => x.compare y
  | .complex x, .complex y => x.compare y
  | .ident x, .ident y => compareOfLessAndEq x y
  | .call f xs, .call g ys => (f.compare g).then (compareAll xs ys)
  | .node f xs, .node g ys => (f.compare g).then (compareAll xs ys)
  | a, b => compareOfLessAndEq a.kindRank b.kindRank

/-- Lexicographically: a list comes after the lists it extends. -/
def compareAll : List Expr → List Expr → Ordering
  | [], [] => .eq
  | [], _ :: _ => .lt
  | _ :: _, [] => .gt
  | x :: xs, y :: ys => (compare x y).then (compareAll xs ys)

end

/-- The expressions without repetitions. -/
def distinct (xs : List Expr) : List Expr := xs.eraseDups

end Expr

end SymbolicAlgebra
