import SymbolicAlgebra.Expr.Query

/-! Degrees, read off a tree without working it out. A degree is a signed word of 64 bits; a sum or
product that leaves the word wraps around. -/
namespace SymbolicAlgebra

/-- The signed word that an integer wraps around to. -/
def signedWord (n : Int) : Int := n.bmod 18446744073709551616

/-- Whether a name counts as a variable: one of the symbols, or without any every name but those of
constants. -/
def countsAsVariable (symbols : List String) (name : String) : Bool :=
  if symbols.isEmpty then !isNamedConstant name else symbols.contains name

namespace Expr

mutual

def hasVariable (symbols : List String) : Expr → Bool
  | .ident name => countsAsVariable symbols name
  | .node _ xs => anyHasVariable symbols xs
  | .call _ xs => anyHasVariable symbols xs
  | _ => false

def anyHasVariable (symbols : List String) : List Expr → Bool
  | [] => false
  | x :: xs => hasVariable symbols x || anyHasVariable symbols xs

end

mutual

/-- The total degree of a tree, zero where no variable occurs. -/
def totalDegree? (symbols : List String) : Expr → Option Int
  | .ident name => some (if countsAsVariable symbols name then 1 else 0)
  | .node op xs =>
    if !(node op xs).hasVariable symbols then some 0
    else
      match op, xs with
      | .add, terms => maxDegree? symbols terms
      | .multiply, factors => sumDegree? symbols factors
      | .subtract, [a, b] =>
        match totalDegree? symbols a, totalDegree? symbols b with
        | some m, some n => some (max m n)
        | _, _ => none
      | .divide, [a, b] => if b.hasVariable symbols then none else totalDegree? symbols a
      | .power, [base, .number x] =>
        match x.int64?, totalDegree? symbols base with
        | some (.ofNat n), some d => some (signedWord (d * n))
        | _, _ => none
      | _, _ => none
  | e => if e.hasVariable symbols then none else some 0

def maxDegree? (symbols : List String) : List Expr → Option Int
  | [] => some 0
  | x :: xs =>
    match totalDegree? symbols x, maxDegree? symbols xs with
    | some m, some n => some (max m n)
    | _, _ => none

def sumDegree? (symbols : List String) : List Expr → Option Int
  | [] => some 0
  | x :: xs =>
    match totalDegree? symbols x, sumDegree? symbols xs with
    | some m, some n => some (signedWord (m + n))
    | _, _ => none

end

/-- The total degree of a polynomial in the symbols, minus one for zero; none for other trees. -/
def degree? (symbols : List String) (e : Expr) : Option Int :=
  if e.isZero then some (-1) else e.totalDegree? symbols

def isPolynomial (e : Expr) : Bool := (e.degree? []).isSome

mutual

/-- The largest integer power of the symbol anywhere in the tree. An occurrence by itself or under
any other exponent counts as one. -/
def highestPower (symbol : String) : Expr → Nat
  | .ident name => if name = symbol then 1 else 0
  | .node .power [base, exponent] =>
    if base.isIdent symbol then
      let power := ((exponent.number?.bind Numeral.int64?).map Int.toNat).getD 1
      max power (highestPower symbol exponent)
    else max (highestPower symbol base) (highestPower symbol exponent)
  | .node _ xs => highestPowerOf symbol xs
  | .call _ xs => highestPowerOf symbol xs
  | _ => 0

def highestPowerOf (symbol : String) : List Expr → Nat
  | [] => 0
  | x :: xs => max (highestPower symbol x) (highestPowerOf symbol xs)

end

end Expr

end SymbolicAlgebra
