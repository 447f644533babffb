import SymbolicAlgebra.Factor.Content

/-! Differences of squares, sums and differences of cubes. -/
namespace SymbolicAlgebra

/-- The `n`-th root of a power; nothing for a root that is one. -/
def powerRoot? (n : Nat) (p : Power) : Option (Option Expr) :=
  match p.2.rational? with
  | some r =>
    let reduced := r / n
    if reduced.den ≠ 1 ∨ reduced.num < 0 then none
    else if reduced = 1 then some (some p.1)
    else if reduced = 0 then some none
    else some (some (.pow p.1 (.ofRat reduced)))
  | none => none

/-- The exact `n`-th root of a monomial, factor by factor. -/
def Expr.termRoot? (n : Nat) (term : Expr) : Option Expr := do
  let t := FactoredTerm.ofTerm term
  let coefficient ← t.coefficient.root? n
  let roots ← t.powers.mapM (powerRoot? n)
  some (.scale coefficient (.product (roots.filterMap id)))

/-- Writes `a² - b²` as `(a + b) * (a - b)`, for exact squares. -/
def factorSquares (e : Expr) : Step :=
  match e.sumForm with
  | .node .add [x, y] =>
    let split (positive negative : Expr) : Step :=
      match positive.termRoot? 2, negative.unsigned.termRoot? 2 with
      | some a, some b => .new (.product [.sum [a, b], .sub a b])
      | _, _ => .same e
    match x.isNegative, y.isNegative with
    | false, true => split x y
    | true, false => split y x
    | _, _ => .same e
  | _ => .same e

/-- Writes `a³ ± b³` as a linear and a quadratic factor. -/
def factorCubes (simplify : Expr → Expr) (e : Expr) : Step :=
  match e.sumForm with
  | .node .add [x, y] =>
    let split (lead other : Expr) : Step :=
      match lead.termRoot? 3, other.unsigned.termRoot? 3 with
      | some a, some b =>
        let square (e : Expr) : Expr := simplify (.pow e (.ofInt 2))
        let cross := simplify (a.times b)
        if other.isNegative then .new (.product [.sub a b, .sum [square a, cross, square b]])
        else
          .new (.product
            [.sum [a, b], (Expr.sum [square a, cross.negate, square b]).differenceForm])
      | _, _ => .same e
    match x.isNegative, y.isNegative with
    | true, true => .same e
    | true, false => split y x
    | false, _ => split x y
  | _ => .same e

end SymbolicAlgebra
