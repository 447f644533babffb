import SymbolicAlgebra.Expr.Basic

/-! The sign of a term: found, changed and stripped without evaluating anything. -/
namespace SymbolicAlgebra

namespace Expr

/-- A negative numeral, a product led by one, or a quotient with such a numerator. -/
def isNegative : Expr → Bool
  | .number x => x.isNegative
  | .node .multiply (.number x :: _) => x.isNegative
  | .node .divide (n :: _) => isNegative n
  | _ => false

/-- The factors with the opposite sign: a leading numeral takes the sign, and goes if it becomes
one. -/
def negateFactors : List Expr → List Expr
  | .number x :: rest => if x.neg.isOne then rest else .number x.neg :: rest
  | factors => ofInt (-1) :: factors

/-- The opposite: the sign goes to a numeral, to a leading numeral of a product, to the numerator
of a quotient, and otherwise in front as a factor. -/
def negate : Expr → Expr
  | .number x => .number x.neg
  | .complex z => .complex z.neg
  | .node .multiply factors => product (negateFactors factors)
  | .node .divide [n, d] => .node .divide [negate n, d]
  | e => product [ofInt (-1), e]

/-- Strips the sign that `isNegative` finds. -/
def unsigned : Expr → Expr
  | .node .divide [n, d] =>
    if n.isNegative then .node .divide [unsigned n, d] else .node .divide [n, d]
  | e => if e.isNegative then e.negate else e

end Expr

end SymbolicAlgebra
