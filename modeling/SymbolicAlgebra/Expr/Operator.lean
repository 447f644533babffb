/-! The operators of expression nodes. -/
namespace SymbolicAlgebra

inductive Operator where
  | add | subtract | multiply | divide | power | modulus
  | bitAnd | bitOr | bitXor | leftShift | rightShift
deriving DecidableEq

namespace Operator

/-- Nested nodes of these operators mean the same as one flat node. -/
def isAssociative : Operator → Bool
  | .add | .multiply | .bitAnd | .bitOr | .bitXor => true
  | _ => false

def symbol : Operator → String
  | .add => "+"
  | .subtract => "-"
  | .multiply => "*"
  | .divide => "/"
  | .power => "^"
  | .modulus => "%"
  | .bitAnd => "&"
  | .bitOr => "|"
  | .bitXor => "^^"
  | .leftShift => "<<"
  | .rightShift => ">>"

/-- Place in the canonical order. -/
def rank : Operator → Nat
  | .add => 0
  | .subtract => 1
  | .multiply => 2
  | .divide => 3
  | .power => 4
  | .modulus => 5
  | .bitAnd => 6
  | .bitOr => 7
  | .bitXor => 8
  | .leftShift => 9
  | .rightShift => 10

def compare (a b : Operator) : Ordering := compareOfLessAndEq a.rank b.rank

def all : List Operator :=
  [.add, .subtract, .multiply, .divide, .power, .modulus, .bitAnd, .bitOr, .bitXor,
    .leftShift, .rightShift]

def ofSymbol? (s : String) : Option Operator := all.find? fun op => op.symbol == s

end Operator

end SymbolicAlgebra
