import SymbolicAlgebra.Expr.Basic

/-! How tightly the parts of a written expression bind, and where brackets go. -/
namespace SymbolicAlgebra

/-- How tightly the outermost construct of a text binds, loosest first. -/
inductive Binding where
  | bitOr | bitXor | bitAnd | shift | sum | product | sign | power | atom
deriving DecidableEq

namespace Binding

def rank : Binding → Nat
  | .bitOr => 1
  | .bitXor => 2
  | .bitAnd => 3
  | .shift => 4
  | .sum => 5
  | .product => 6
  | .sign => 7
  | .power => 8
  | .atom => 9

/-- Whether `a` binds looser than `b`. -/
def looser (a b : Binding) : Bool := a.rank < b.rank

/-- Whether `a` binds no tighter than `b`. -/
def noTighter (a b : Binding) : Bool := a.rank ≤ b.rank

end Binding

def Operator.binding : Operator → Binding
  | .add | .subtract => .sum
  | .multiply | .divide | .modulus => .product
  | .power => .power
  | .bitOr => .bitOr
  | .bitXor => .bitXor
  | .bitAnd => .bitAnd
  | .leftShift | .rightShift => .shift

namespace Expr

/-- Two factors of which the first is minus one: written as a sign. -/
def isOpposite : List Expr → Bool
  | [.number x, _] => x == .ofInt (-1)
  | _ => false

def binding : Expr → Binding
  | .number x => if x.isNegative then .sign else .atom
  | .complex z =>
    if !z.re.isZero then .sum else if z.im.isNegative then .sign else .atom
  | .ident _ => .atom
  | .call _ _ => .atom
  | .node op xs => if op = .multiply ∧ isOpposite xs then .sign else op.binding

/-- A name or a power of one: it may follow its numeral factor without a sign between. -/
def startsWithName : Expr → Bool
  | .ident _ => true
  | .node .power (.ident _ :: _) => true
  | _ => false

/-- A numeral and the factor that is written directly after it. -/
def directFactor? : List Expr → Option (Numeral × Expr)
  | [.number x, e] => if !x.isNaN && e.startsWithName then some (x, e) else none
  | _ => none

/-- A numeral factor in front of a name: minus one is a bare sign. -/
def directText (x : Numeral) : String := if x = .ofInt (-1) then "-" else x.text

/-- Whether an addend needs brackets; only the first may be a difference. -/
def addendBrackets (first : Bool) (e : Expr) : Bool :=
  e.binding.looser .sum || e.isNode .add || (!first && e.isNode .subtract)

/-- Whether each addend of a sum needs brackets. -/
def addendsBrackets : List Expr → List Bool
  | [] => []
  | e :: es => addendBrackets true e :: es.map (addendBrackets false)

end Expr

end SymbolicAlgebra
