import SymbolicAlgebra.Rule.Everywhere

/-! Arithmetic on the complex constants among operands. -/
namespace SymbolicAlgebra

namespace Expr

/-- The value of a numeral, or of a quotient of two exact ones. -/
def numeral? : Expr → Option Numeral
  | .number x => some x
  | e => e.rational?.map .exact

/-- The value of a constant as a complex numeral. -/
def complex? : Expr → Option ComplexNumeral
  | .complex z => some z
  | e => e.numeral?.map .ofReal

/-- A complex value, a real one as a numeral or a quotient of integers. -/
def ofComplex (z : ComplexNumeral) : Expr := if z.isReal then ofNumeral z.re else .complex z

/-- Adds up the constants of a sum into one, placed last. -/
def addComplexConstants (xs : List Expr) : List Expr :=
  let total := (xs.filterMap complex?).foldl ComplexNumeral.add (.ofReal .zero)
  xs.filter (fun x => x.complex?.isNone) ++ [ofComplex total]

/-- A numeral or complex numeral: what the constants of a product are gathered from. -/
def isNumeralFactor (e : Expr) : Bool := e.isNumber || e.isComplex

/-- Multiplies the numerals of a product into one, placed first. -/
def multiplyComplexConstants (xs : List Expr) : List Expr :=
  let total := ((xs.filter isNumeralFactor).filterMap complex?).foldl ComplexNumeral.mul .one
  (if total.isReal then .number total.re else .complex total) ::
    xs.filter fun x => !x.isNumeralFactor

/-- The quotient of two constants of which one is complex, unless the divisor is zero. -/
def constantQuotient? (a b : Expr) : Option Expr :=
  if a.isComplex || b.isComplex then
    match a.complex?, b.complex? with
    | some z, some w => if w.isZero then none else some (ofComplex (z.div w))
    | _, _ => none
  else none

end Expr

end SymbolicAlgebra
