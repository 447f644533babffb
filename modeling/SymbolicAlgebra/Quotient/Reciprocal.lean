import SymbolicAlgebra.Product.Coefficient
import SymbolicAlgebra.Rule.Everywhere

/-! Quotients as products with powers of minus one, and back. -/
namespace SymbolicAlgebra

/-- Writes `a / b` as `a * b ^ (-1)`. -/
def quotientToProduct : Expr → Step
  | .node .divide [n, d] => .new (n.times (.pow d (.ofInt (-1))))
  | e => .same e

def toProducts (e : Expr) : Step := everywhere quotientToProduct e

namespace Expr

/-- A power with a negative numeral as exponent. -/
def hasNegativeExponent : Expr → Bool
  | .node .power [_, .number x] => x.isNegative
  | _ => false

/-- The power with the opposite numeral exponent; the base alone for minus one. -/
def invertExponent : Expr → Expr
  | .node .power [base, .number x] => if x = .ofInt (-1) then base else .pow base (.number x.neg)
  | e => e

/-- A factor that belongs below a quotient bar. -/
def isReciprocal : Expr → Bool
  | .node .divide [n, _] => n.isOne
  | e => e.hasNegativeExponent

/-- What stands below the bar for such a factor. -/
def belowBar : Expr → Expr
  | .node .divide [_, d] => d
  | e => e.invertExponent

end Expr

def productToQuotient : Expr → Step
  | .node .multiply xs =>
    if xs.any Expr.isReciprocal then
      let (bottom, top) := xs.partition Expr.isReciprocal
      .new (.div (.product top) (.product (bottom.map Expr.belowBar)))
    else .same (.node .multiply xs)
  | e => if e.hasNegativeExponent then .new (.div .one e.invertExponent) else .same e

/-- Moves factors with negative numeral exponents below a quotient bar. -/
def toQuotients (e : Expr) : Step := everywhere productToQuotient e

end SymbolicAlgebra
