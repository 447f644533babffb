import SymbolicAlgebra.Expr.Sign
import SymbolicAlgebra.Product.Coefficient
import SymbolicAlgebra.Rule.Everywhere

/-! Differences as sums with negated addends, and back. -/
namespace SymbolicAlgebra

/-- Writes `a - b` as a sum: the addends of `a` and the opposite of `b`. -/
def differenceToSum : Expr → Step
  | .node .subtract [a, b] => .new (.node .add (a.addends ++ [b.negate]))
  | e => .same e

/-- Turns every binary difference into a sum. -/
def toSums (e : Expr) : Step := everywhere differenceToSum e

/-- The first addend that is not negative, and the others in order. -/
def takePositive? : List Expr → Option (Expr × List Expr)
  | [] => none
  | x :: xs =>
    if x.isNegative then (takePositive? xs).map fun (p, rest) => (p, x :: rest) else some (x, xs)

/-- Puts an addend that is not negative in front of a negative one, if there is any. -/
def bringPositiveForward (xs : List Expr) : List Expr × Bool :=
  match xs with
  | [] => ([], false)
  | x :: _ =>
    if x.isNegative then
      match takePositive? xs with
      | some (p, rest) => (p :: rest, true)
      | none => (xs, false)
    else (xs, false)

def orderAddends : Expr → Step
  | .node .add xs =>
    let (ordered, moved) := bringPositiveForward xs
    ⟨.node .add ordered, moved⟩
  | e => .same e

/-- Lets no sum start with a negative addend that has one of the other sign after it. -/
def positiveFirst (e : Expr) : Step := everywhere orderAddends e

/-- A sum as a chain of differences: each negative addend is subtracted from all before it. -/
def subtractFrom (run : List Expr) : List Expr → Expr
  | [] => .sum run
  | x :: xs =>
    if x.isNegative then subtractFrom [.sub (.sum run) x.unsigned] xs
    else subtractFrom (run ++ [x]) xs

def sumToDifference : Expr → Step
  | .node .add (x :: y :: xs) =>
    match bringPositiveForward (x :: y :: xs) with
    | (first :: rest, moved) =>
      if rest.any Expr.isNegative then .new (subtractFrom [first] rest)
      else ⟨.node .add (first :: rest), moved⟩
    | ([], moved) => ⟨.node .add [], moved⟩
  | e => .same e

/-- Turns negative addends after the first into differences. -/
def toDifferences (e : Expr) : Step := everywhere sumToDifference e

end SymbolicAlgebra
