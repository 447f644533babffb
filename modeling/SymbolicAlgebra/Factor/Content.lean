import SymbolicAlgebra.Factor.Shared
import SymbolicAlgebra.Polynomial.OfExpr
import SymbolicAlgebra.Rule.Flatten
import SymbolicAlgebra.Sum.Difference

/-! The integer content of a sum: `4x - 2` is `2 * (2x - 1)`. -/
namespace SymbolicAlgebra

/-- A sum with negated addends in place of differences, flat. -/
def Expr.sumForm (e : Expr) : Expr := (flatten (toSums e).expr).expr

/-- Differences in place of negative addends. -/
def Expr.differenceForm (e : Expr) : Expr := (toDifferences e).expr

/-- The common divisor of integer coefficients, and the terms divided by it; none if it is one. -/
def contentAndRest? (terms : List Expr) : Option (Numeral × List Expr) :=
  let split := terms.map Expr.asMultiple
  match contentFrom? .zero (split.map Prod.fst) with
  | some content =>
    if content.isZero || content.isOne then none
    else some (content, split.map fun t => .scale (t.1.div content) t.2)
  | none => none

/-- A sum in one identifier by descending powers, as differences. The leading term stays in front
also when it is negative. -/
def descendingForm (simplify : Expr → Expr) (e : Expr) : Expr :=
  match e.identifiers with
  | [name] =>
    match e.byDescendingPowers simplify name with
    | .node .add [] => .zero
    | .node .add (t :: ts) => subtractFrom [t] ts
    | ordered => ordered.differenceForm
  | _ => e.differenceForm

/-- Divides the integer content out of a sum. -/
def factorContent (simplify : Expr → Expr) (e : Expr) : Step :=
  match e.sumForm with
  | .node .add terms =>
    match contentAndRest? terms with
    | some (content, rest) =>
      .new (.product [.number content, descendingForm simplify (.sum rest)])
    | none => .same e
  | _ => .same e

end SymbolicAlgebra
