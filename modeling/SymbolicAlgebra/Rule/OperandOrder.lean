import SymbolicAlgebra.Expr.Order
import SymbolicAlgebra.Rule.Everywhere

/-! The order of operands in commutative nodes.

Sums list monomials by descending total degree, then other symbolic terms, then numerals. Products
list numerals, complex numerals, identifiers, calls, symbolic powers and compound factors; a power
with a numeric exponent goes with its base. -/
namespace SymbolicAlgebra

namespace Expr

mutual

/-- The total degree of a product of identifiers and their positive powers, numerals aside. -/
def degreeOfMonomial? : Expr → Option Nat
  | .ident _ => some 1
  | .node .power [.ident _, .number x] =>
    match x.int64? with
    | some (.ofNat (n + 1)) => some (n + 1)
    | _ => none
  | .node .multiply factors => (factorsDegree? factors).filter fun degree => 0 < degree
  | _ => none

def factorsDegree? : List Expr → Option Nat
  | [] => some 0
  | .number _ :: xs => factorsDegree? xs
  | x :: xs =>
    match degreeOfMonomial? x, factorsDegree? xs with
    | some a, some b => some (a + b)
    | _, _ => none

end

/-- A numeral of any kind, or a quotient of two. -/
def isConstant (e : Expr) : Bool := e.isNumber || e.isComplex || e.rational?.isSome

/-- The class of an addend, and the negated degree of a monomial. -/
def addendPlace (e : Expr) : Nat × Int :=
  if e.isConstant then (2, 0)
  else
    match e.degreeOfMonomial? with
    | some degree => (0, -degree)
    | none => (1, 0)

/-- The factors of a product from the first one that is no numeral; any other term alone. -/
def symbolicFactors : Expr → List Expr
  | .node .multiply factors => factors.dropWhile isNumber
  | e => [e]

def addendOrder (a b : Expr) : Ordering :=
  let (p, m) := a.addendPlace
  let (q, n) := b.addendPlace
  (compareOfLessAndEq p q).then ((compareOfLessAndEq m n).then
    ((compareAll a.symbolicFactors b.symbolicFactors).then (a.compare b)))

/-- A rational, or a numeral other than the undefined one. -/
def isNumericExponent (e : Expr) : Bool :=
  e.rational?.isSome || match e with
    | .number x => !x.isNaN
    | _ => false

/-- The class of a factor that is no power. -/
def basePlace : Expr → Nat
  | .number _ => 0
  | .complex _ => 1
  | .ident _ => 2
  | .call _ _ => 3
  | .node _ _ => 5

/-- The class of a factor; symbolic powers come just before compound factors. -/
def factorPlace : Expr → Nat
  | .node .power [base, exponent] => if exponent.isNumericExponent then base.basePlace else 4
  | e => e.basePlace

def factorOrder (a b : Expr) : Ordering :=
  (compareOfLessAndEq a.factorPlace b.factorPlace).then (a.compare b)

end Expr

/-- No element comes before its predecessor. -/
def inOrder (order : Expr → Expr → Ordering) : List Expr → Bool
  | x :: y :: rest => order x y != .gt && inOrder order (y :: rest)
  | _ => true

/-- The order of the operands of a commutative operator. -/
def Operator.operandOrder? : Operator → Option (Expr → Expr → Ordering)
  | .add => some Expr.addendOrder
  | .multiply => some Expr.factorOrder
  | .bitAnd | .bitOr | .bitXor => some Expr.compare
  | _ => none

/-- Puts the operands in order; equal ones keep their places. -/
def orderOperandsNode : Expr → Step
  | .node op xs =>
    match op.operandOrder? with
    | some order =>
      if inOrder order xs then .same (.node op xs)
      else .new (.node op (xs.mergeSort fun a b => order a b != .gt))
    | none => .same (.node op xs)
  | e => .same e

/-- Orders the operands of commutative nodes. -/
def orderOperands (e : Expr) : Step := everywhere orderOperandsNode e

def numbersFirstNode : Expr → Step
  | .node .multiply xs =>
    if (xs.dropWhile Expr.isNumber).any Expr.isNumber then
      let (numbers, others) := xs.partition Expr.isNumber
      .new (.node .multiply (numbers ++ others))
    else .same (.node .multiply xs)
  | e => .same e

/-- Moves the numerals of products in front of the other factors. -/
def numbersFirst (e : Expr) : Step := everywhere numbersFirstNode e

end SymbolicAlgebra
