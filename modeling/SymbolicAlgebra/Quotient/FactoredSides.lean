import SymbolicAlgebra.Factor.Binomial
import SymbolicAlgebra.Factor.RationalRoot

/-! Quotients whose sides share a factor once their sums are factored. -/
namespace SymbolicAlgebra

/-- A sum factored by the first routine that can: content, squares, quadratic, rational root, shared
factor. -/
def factoredSum (simplify : Expr → Expr) (e : Expr) : Expr :=
  let attempts :=
    [factorContent simplify, factorSquares, factorQuadraticExactly, factorRationalRoot,
      factorShared]
  let factored? (attempt : Expr → Step) : Option Expr :=
    let result := attempt e
    if result.changed then some result.expr else none
  (attempts.findSome? factored?).getD e

/-- A sum, or a product with one among its factors. -/
def Expr.holdsSum : Expr → Bool
  | .node .multiply xs => xs.any (Expr.isNode .add)
  | e => e.isNode .add

/-- One side of a quotient with every sum among its factors factored. -/
def withFactoredSums (simplify : Expr → Expr) (side : Expr) : Expr :=
  .product (side.factors.flatMap fun f =>
    if f.isNode .add then (factoredSum simplify f).sumForm.factors else [f])

def reduceFactoredNode (simplify : Expr → Expr) : Expr → Step
  | .node .divide [n, d] =>
    if n.isNaN || d.isZero || (!n.holdsSum && !d.holdsSum) then .same (.div n d)
    else
      let reduced := reduceSharedBases (withFactoredSums simplify n) (withFactoredSums simplify d)
      if reduced.changed then reduced else .same (.div n d)
  | e => .same e

/-- Factors the sums of a quotient and keeps the result only if a factor cancels. -/
def reduceFactored (simplify : Expr → Expr) (e : Expr) : Step :=
  everywhere (reduceFactoredNode simplify) e

end SymbolicAlgebra
