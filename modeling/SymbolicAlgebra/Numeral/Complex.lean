import SymbolicAlgebra.Numeral.Basic
import SymbolicAlgebra.Numeral.Power
import SymbolicAlgebra.Numeral.Text

/-! Complex numbers with numeral parts. -/
namespace SymbolicAlgebra

structure ComplexNumeral where
  re : Numeral
  im : Numeral
deriving DecidableEq

namespace ComplexNumeral

def ofReal (x : Numeral) : ComplexNumeral := ⟨x, .zero⟩

def one : ComplexNumeral := ofReal .one

def isReal (z : ComplexNumeral) : Bool := z.im.isZero

def isZero (z : ComplexNumeral) : Bool := z.re.isZero && z.im.isZero

def add (z w : ComplexNumeral) : ComplexNumeral := ⟨z.re.add w.re, z.im.add w.im⟩

def sub (z w : ComplexNumeral) : ComplexNumeral := ⟨z.re.sub w.re, z.im.sub w.im⟩

def neg (z : ComplexNumeral) : ComplexNumeral := ⟨z.re.neg, z.im.neg⟩

def mul (z w : ComplexNumeral) : ComplexNumeral :=
  ⟨(z.re.mul w.re).sub (z.im.mul w.im), (z.re.mul w.im).add (z.im.mul w.re)⟩

/-- The quotient as the product with the conjugate over the norm. -/
def div (z w : ComplexNumeral) : ComplexNumeral :=
  let norm := (w.re.mul w.re).add (w.im.mul w.im)
  let re := (z.re.mul w.re).add (z.im.mul w.im)
  let im := (z.im.mul w.re).sub (z.re.mul w.im)
  ⟨re.div norm, im.div norm⟩

/-- An integer power within the exponent limit; none for a negative power of zero. -/
def pow? (z : ComplexNumeral) (exponent : Int) : Option ComplexNumeral :=
  if exponentLimit < exponent.natAbs ∨ (exponent < 0 ∧ z.isZero) then none
  else
    let raised := powerOnto mul one z exponent.natAbs
    some (if exponent < 0 then one.div raised else raised)

/-- By the real part, then by the imaginary part. -/
def compare (z w : ComplexNumeral) : Ordering := (z.re.compare w.re).then (z.im.compare w.im)

/-- The imaginary part carries the unit; a real part of zero and a factor of one are left out. -/
def text (z : ComplexNumeral) : String :=
  let magnitude := z.im.abs
  let unit := if magnitude.isOne then "i" else magnitude.text ++ "i"
  match z.re.isZero, z.im.isNegative with
  | true, true => "-" ++ unit
  | true, false => unit
  | false, true => z.re.text ++ " - " ++ unit
  | false, false => z.re.text ++ " + " ++ unit

end ComplexNumeral

end SymbolicAlgebra
