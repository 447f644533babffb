import SymbolicAlgebra.Expr.Basic

/-! Expressions as lists of factors or addends, and the numeral coefficient of a term: `3 * x * y` is
`3` times `x * y`, and `(2x) / (3y)` is `2 / 3` times `x / y`. -/
namespace SymbolicAlgebra

namespace Expr

/-- The factors of a product; any other expression is its only factor. -/
def factors : Expr → List Expr
  | .node .multiply xs => xs
  | e => [e]

/-- The addends of a sum; any other expression is its only addend. -/
def addends : Expr → List Expr
  | .node .add xs => xs
  | e => [e]

/-- The product of two expressions as one flat list of factors, ones left out. -/
def times (a b : Expr) : Expr := product ((a.factors ++ b.factors).filter fun x => !x.isOne)

/-- The product of the numerals among the factors. -/
def numeralProduct (factors : List Expr) : Numeral :=
  (factors.filterMap number?).foldl Numeral.mul .one

/-- A term with a numeral in front, where the numeral is no fraction: zero drops the term, one and a
factor of one are left out, and a quotient takes the numeral into its numerator. -/
def scaleWhole (coefficient : Numeral) : Expr → Expr
  | .node .divide [upper, lower] =>
    if coefficient.isZero then zero
    else if coefficient.isOne then div upper lower
    else div (scaleWhole coefficient upper) lower
  | rest =>
    if coefficient.isZero then zero
    else if coefficient.isOne then rest
    else if rest.isOne then .number coefficient
    else
      match rest with
      | .node .multiply factors => product (.number coefficient :: factors)
      | rest => product [.number coefficient, rest]

/-- A term with a coefficient in front. An exact fraction goes below a quotient bar, the one that is
there or a new one. -/
def scale (coefficient : Numeral) (rest : Expr) : Expr :=
  match coefficient.fraction? with
  | some (num, den) =>
    match rest with
    | .node .divide [upper, lower] =>
      div (scaleWhole (.ofInt num) upper) (scaleWhole (.ofInt den) lower)
    | rest => div (scaleWhole (.ofInt num) rest) (ofInt den)
  | none => scaleWhole coefficient rest

/-- A quotient of two split terms. A divisor that is zero or undefined keeps the quotient whole. -/
def quotientMultiple (top bottom : Numeral × Expr) : Numeral × Expr :=
  if bottom.1.isZero || bottom.1.isNaN || top.1.isNaN then
    (.one, div (scale top.1 top.2) (scale bottom.1 bottom.2))
  else
    (top.1.div bottom.1, if bottom.2.isOne then top.2 else div top.2 bottom.2)

/-- The numeral coefficient of a term and the rest of it. -/
def asMultiple : Expr → Numeral × Expr
  | .node .multiply factors =>
    (numeralProduct factors, product (factors.filter fun x => !x.isNumber))
  | .node .divide [n, d] => quotientMultiple (asMultiple n) (asMultiple d)
  | .number x => (x, one)
  | e => (.one, e)

/-- A factor as base and exponent. -/
def asPower : Expr → Expr × Expr
  | .node .power [base, exponent] => (base, exponent)
  | e => (e, one)

end Expr

end SymbolicAlgebra
