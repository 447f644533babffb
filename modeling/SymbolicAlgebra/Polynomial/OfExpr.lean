import SymbolicAlgebra.Expr.Query
import SymbolicAlgebra.Polynomial.Division
import SymbolicAlgebra.Product.Coefficient

/-! Expressions read as polynomials in one variable, and polynomials written as expressions. -/
namespace SymbolicAlgebra

namespace Polynomial

mutual

/-- Reads an expression as a polynomial in a variable. What does not mention the variable is a
constant; sums, differences, products, quotients by constants and natural powers are worked out. -/
def ofExpr? (R : ExprCoefficients C) (unknown : String) : Expr → Option (Polynomial C)
  | .ident name =>
    if name = unknown then some (monomial R.toCoefficientRing R.one 1)
    else (R.constant? (.ident name)).map fun c => monomial R.toCoefficientRing c 0
  | .node op xs =>
    if !(Expr.node op xs).mentions unknown then
      (R.constant? (.node op xs)).map fun c => monomial R.toCoefficientRing c 0
    else
      match op, xs with
      | .add, terms => sumOfExprs? R unknown zero terms
      | .multiply, factors => productOfExprs? R unknown (one R.toCoefficientRing) factors
      | .subtract, [a, b] => do
        let p ← ofExpr? R unknown a
        let q ← ofExpr? R unknown b
        some (p.sub R.toCoefficientRing q)
      | .divide, [a, b] =>
        if b.mentions unknown then none
        else do
          let d ← R.constant? b
          if R.isZero d then none
          else
            let p ← ofExpr? R unknown a
            some (p.scale R.toCoefficientRing (R.div R.one d))
      | .power, [base, .number x] => do
        let n ← x.uint64?
        let p ← ofExpr? R unknown base
        some (p.pow R.toCoefficientRing n)
      | _, _ => none
  | e =>
    if e.mentions unknown then none
    else (R.constant? e).map fun c => monomial R.toCoefficientRing c 0

def sumOfExprs? (R : ExprCoefficients C) (unknown : String) (acc : Polynomial C) :
    List Expr → Option (Polynomial C)
  | [] => some acc
  | x :: xs => do
    let p ← ofExpr? R unknown x
    sumOfExprs? R unknown (acc.add R.toCoefficientRing p) xs

def productOfExprs? (R : ExprCoefficients C) (unknown : String) (acc : Polynomial C) :
    List Expr → Option (Polynomial C)
  | [] => some acc
  | x :: xs => do
    let p ← ofExpr? R unknown x
    productOfExprs? R unknown (acc.mul R.toCoefficientRing p) xs

end

/-- A power of the variable. -/
def variablePower (unknown : String) : Nat → Expr
  | 0 => .one
  | 1 => .ident unknown
  | n => .pow (.ident unknown) (.ofInt n)

/-- The sum of the terms by descending exponent. -/
def toExpr (R : ExprCoefficients C) (unknown : String) (p : Polynomial C) : Expr :=
  .sum (p.terms.reverse.map fun t => (R.toExpr t.2).times (variablePower unknown t.1))

end Polynomial

namespace Expr

/-- The numeral coefficients of a polynomial in at most one unknown, from the highest exponent down;
if `integral`, only where all are integers. -/
def coefficients? (integral : Bool) (e : Expr) : Option (List Numeral) :=
  let R := numeralCoefficients
  let read (unknown : String) : Option (List Numeral) :=
    match Polynomial.ofExpr? R unknown e with
    | some p =>
      let cs := p.descending R.toCoefficientRing
      if integral && !cs.all Numeral.isInteger then none else some cs
    | none => none
  match e.unknowns with
  | [] => read ""
  | [unknown] => read unknown
  | _ => none

/-- A polynomial in the variable as a sum by descending powers; other trees stay as they are. -/
def byDescendingPowers (simplify : Expr → Expr) (unknown : String) (e : Expr) : Expr :=
  let R := symbolicCoefficients simplify
  match Polynomial.ofExpr? R unknown e with
  | some p => if p.isZero then e else p.toExpr R unknown
  | none => e

end Expr

/-- The variable to divide in: the first one asked for, or the only unknown of both sides. -/
def divisionVariable? (dividend divisor : Expr) : List String → Option String
  | unknown :: _ => some unknown
  | [] =>
    match divisor.unknowns.foldl (fun names n => Expr.insertName n names) dividend.unknowns with
    | [unknown] => some unknown
    | _ => none

/-- Quotient and remainder as polynomials in the first of `unknowns`, other identifiers belonging to
the coefficients; both simplified. -/
def polynomialQuotient? (simplify : Expr → Expr) (dividend divisor : Expr)
    (unknowns : List String) : Option (Expr × Expr) := do
  let R := symbolicCoefficients simplify
  let unknown ← divisionVariable? dividend divisor unknowns
  let p ← Polynomial.ofExpr? R unknown dividend
  let d ← Polynomial.ofExpr? R unknown divisor
  let (quotient, remainder) ← p.divRem? R.toCoefficientRing d
  some (simplify (quotient.toExpr R unknown), simplify (remainder.toExpr R unknown))

end SymbolicAlgebra
