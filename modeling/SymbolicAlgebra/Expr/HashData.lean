import SymbolicAlgebra.Expr.Order

/-! What a tree tells a hasher, piece by piece. How a rational does so is left open. -/
namespace SymbolicAlgebra

/-- One piece of data that a hasher is fed. -/
inductive HashDatum where
  | variant (index : Nat)
  | byte (value : UInt8)
  | word (value : UInt64)
  | length (count : Nat)
  | text (value : String)
deriving DecidableEq

section

variable (ofRat : Rat → List HashDatum)

/-- A byte for the kind, then the value: a float by its bits. -/
def Numeral.hashData : Numeral → List HashDatum
  | .exact r => .byte 0 :: ofRat r
  | .float x => [.byte 1, .word x.value.bits]
  | .nan => [.byte 2]

def ComplexNumeral.hashData (z : ComplexNumeral) : List HashDatum :=
  z.re.hashData ofRat ++ z.im.hashData ofRat

/-- The place among the known functions; the name of any other. -/
def NamedFunction.hashData (f : NamedFunction) : List HashDatum :=
  .variant f.rank :: match f with
    | .other name => [.text name]
    | _ => []

namespace Expr

mutual

/-- The kind, then what the tree holds; operands are announced by their number. -/
def hashData : Expr → List HashDatum
  | .number x => .variant 0 :: x.hashData ofRat
  | .complex z => .variant 1 :: z.hashData ofRat
  | .ident name => [.variant 2, .text name]
  | .call f xs => .variant 3 :: (f.hashData ++ .length xs.length :: hashDataAll xs)
  | .node op xs => .variant 4 :: .variant op.rank :: .length xs.length :: hashDataAll xs

def hashDataAll : List Expr → List HashDatum
  | [] => []
  | x :: xs => hashData x ++ hashDataAll xs

end

end Expr

end

end SymbolicAlgebra
