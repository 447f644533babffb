import SymbolicAlgebra.Product.Coefficient
import SymbolicAlgebra.Rule.Everywhere

/-! Powers with one exponent drawn together under it. -/
namespace SymbolicAlgebra

/-- The bases of the powers in a product that share an exponent. -/
structure SameExponent where
  exponent : Expr
  bases : List Expr

namespace SameExponent

def insert (base exponent : Expr) : List SameExponent → List SameExponent
  | [] => [⟨exponent, [base]⟩]
  | g :: gs =>
    if g.exponent = exponent then ⟨g.exponent, g.bases ++ [base]⟩ :: gs
    else g :: insert base exponent gs

def toExpr (g : SameExponent) : Expr := .pow (.product g.bases) g.exponent

/-- The powers among the factors, grouped by exponent in the order of their first members. -/
def gather (xs : List Expr) : List SameExponent :=
  (xs.filterMap (Expr.sides? .power)).foldl (fun groups p => insert p.1 p.2 groups) []

end SameExponent

/-- Other factors come first, then the powers by exponent. -/
def shareProductExponents (xs : List Expr) : Step :=
  let groups := SameExponent.gather xs
  let others := xs.filter fun x => (x.sides? .power).isNone
  ⟨.product (others ++ groups.map SameExponent.toExpr), groups.any fun g => 1 < g.bases.length⟩

def shareExponentsNode : Expr → Step
  | .node .multiply xs => shareProductExponents xs
  | .node .divide [.node .power [a, m], .node .power [b, n]] =>
    if m = n then .new (.pow (.div a b) m) else .same (.div (.pow a m) (.pow b n))
  | e => .same e

/-- Writes `x ^ n * y ^ n` as `(x * y) ^ n`, and `x ^ n / y ^ n` as `(x / y) ^ n`. -/
def shareExponents (e : Expr) : Step := everywhere shareExponentsNode e

end SymbolicAlgebra
