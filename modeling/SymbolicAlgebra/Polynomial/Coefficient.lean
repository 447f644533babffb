import SymbolicAlgebra.Expr.Sign

/-! The coefficients of polynomials: numerals, or expressions kept simple by a given rule. -/
namespace SymbolicAlgebra

/-- Arithmetic on coefficients. `isZero` may miss a zero but never takes another value for one. -/
structure CoefficientRing (C : Type) where
  zero : C
  one : C
  isZero : C → Bool
  isOne : C → Bool
  add : C → C → C
  sub : C → C → C
  mul : C → C → C
  div : C → C → C
  neg : C → C

/-- Coefficients that expressions without the variable are read as. -/
structure ExprCoefficients (C : Type) extends CoefficientRing C where
  constant? : Expr → Option C
  toExpr : C → Expr

/-- Numerals as coefficients. -/
def numeralCoefficients : ExprCoefficients Numeral where
  zero := .zero
  one := .one
  isZero := Numeral.isZero
  isOne := Numeral.isOne
  add := Numeral.add
  sub := Numeral.sub
  mul := Numeral.mul
  div := Numeral.div
  neg := Numeral.neg
  constant?
    | .number x => some x
    | e => e.rational?.map .exact
  toExpr := .number

/-- Expressions as coefficients; every result is simplified. -/
def symbolicCoefficients (simplify : Expr → Expr) : ExprCoefficients Expr where
  zero := .zero
  one := .one
  isZero := Expr.isZero
  isOne := Expr.isOne
  add a b := simplify (.add a b)
  sub a b := simplify (.sub a b)
  mul a b := simplify (.mul a b)
  div a b := simplify (.div a b)
  neg a := simplify a.negate
  constant? := some
  toExpr e := e

end SymbolicAlgebra
