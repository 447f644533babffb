import SymbolicAlgebra.Expr.NamedFunction
import SymbolicAlgebra.Expr.Operator
import SymbolicAlgebra.Numeral.Complex

/-! Expression trees with any number of operands at each node, their parts and builders. -/
namespace SymbolicAlgebra

inductive Expr where
  | number (value : Numeral)
  | complex (value : ComplexNumeral)
  | ident (name : String)
  | call (function : NamedFunction) (args : List Expr)
  | node (op : Operator) (operands : List Expr)

/-- Whether an identifier names a mathematical constant rather than an unknown. -/
def isNamedConstant (name : String) : Bool := ["e", "pi", "PI"].contains name

namespace Expr

mutual

/-- Equality is decided on both trees at once. -/
def decEq : (a b : Expr) → Decidable (a = b)
  | .number x, .number y =>
    if h : x = y then isTrue (by rw [h]) else isFalse (by simp [h])
  | .complex x, .complex y =>
    if h : x = y then isTrue (by rw [h]) else isFalse (by simp [h])
  | .ident x, .ident y =>
    if h : x = y then isTrue (by rw [h]) else isFalse (by simp [h])
  | .call f xs, .call g ys =>
    if h : f = g then
      match decEqAll xs ys with
      | isTrue hs => isTrue (by rw [h, hs])
      | isFalse hs => isFalse (by simp [hs])
    else isFalse (by simp [h])
  | .node f xs, .node g ys =>
    if h : f = g then
      match decEqAll xs ys with
      | isTrue hs => isTrue (by rw [h, hs])
      | isFalse hs => isFalse (by simp [hs])
    else isFalse (by simp [h])
  | .number _, .complex _ | .number _, .ident _ | .number _, .call _ _ | .number _, .node _ _
  | .complex _, .number _ | .complex _, .ident _ | .complex _, .call _ _ | .complex _, .node _ _
  | .ident _, .number _ | .ident _, .complex _ | .ident _, .call _ _ | .ident _, .node _ _
  | .call _ _, .number _ | .call _ _, .complex _ | .call _ _, .ident _ | .call _ _, .node _ _
  | .node _ _, .number _ | .node _ _, .complex _ | .node _ _, .ident _ | .node _ _, .call _ _ =>
    isFalse (by simp)

def decEqAll : (xs ys : List Expr) → Decidable (xs = ys)
  | [], [] => isTrue rfl
  | x :: xs, y :: ys =>
    match decEq x y with
    | isTrue h =>
      match decEqAll xs ys with
      | isTrue hs => isTrue (by rw [h, hs])
      | isFalse hs => isFalse (by simp [hs])
    | isFalse h => isFalse (by simp [h])
  | [], _ :: _ | _ :: _, [] => isFalse (by simp)

end

instance : DecidableEq Expr := decEq

/-! ## Builders -/

def ofInt (n : Int) : Expr := .number (.ofInt n)

def zero : Expr := ofInt 0

def one : Expr := ofInt 1

def nan : Expr := .number .nan

/-- The sum of the operands: zero for none, the operand itself for one. -/
def sum : List Expr → Expr
  | [] => zero
  | [x] => x
  | xs => .node .add xs

/-- The product of the operands: one for none, the operand itself for one. -/
def product : List Expr → Expr
  | [] => one
  | [x] => x
  | xs => .node .multiply xs

def add (a b : Expr) : Expr := .node .add [a, b]

def sub (a b : Expr) : Expr := .node .subtract [a, b]

def mul (a b : Expr) : Expr := .node .multiply [a, b]

def div (a b : Expr) : Expr := .node .divide [a, b]

def pow (a b : Expr) : Expr := .node .power [a, b]

/-- A call with one argument. -/
def apply (f : NamedFunction) (arg : Expr) : Expr := .call f [arg]

def ln (arg : Expr) : Expr := apply .ln arg

/-- A rational as an integer, or as a quotient of two integers in lowest terms. -/
def ofRat (r : Rat) : Expr :=
  if r.den = 1 then .number (.exact r) else div (ofInt r.num) (ofInt r.den)

/-- A numeral, with an exact fraction as a quotient of two integers. -/
def ofNumeral : Numeral → Expr
  | .exact r => ofRat r
  | x => .number x

/-! ## Parts -/

def number? : Expr → Option Numeral
  | .number x => some x
  | _ => none

def isNumber : Expr → Bool
  | .number _ => true
  | _ => false

def isComplex : Expr → Bool
  | .complex _ => true
  | _ => false

def isNode (op : Operator) : Expr → Bool
  | .node o _ => o == op
  | _ => false

/-- The two sides of a node with the given operator and exactly two operands. -/
def sides? (op : Operator) : Expr → Option (Expr × Expr)
  | .node o [a, b] => if o = op then some (a, b) else none
  | _ => none

/-- The argument of a call of `f` with one argument. -/
def argument? (f : NamedFunction) : Expr → Option Expr
  | .call g [x] => if g = f then some x else none
  | _ => none

def isZero : Expr → Bool
  | .number x => x.isZero
  | _ => false

def isOne : Expr → Bool
  | .number x => x.isOne
  | _ => false

def isNaN : Expr → Bool
  | .number x => x.isNaN
  | _ => false

def isIdent (name : String) : Expr → Bool
  | .ident n => n == name
  | _ => false

/-- The value of an exact numeral, or of a quotient of two with a divisor other than zero. -/
def rational? : Expr → Option Rat
  | .number (.exact r) => some r
  | .node .divide [.number (.exact a), .number (.exact b)] => if b = 0 then none else some (a / b)
  | _ => none

end Expr

end SymbolicAlgebra
