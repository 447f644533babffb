/-! Binary64 values as their 64 bits: sign, exponent and fraction fields, the total order of the
bits. -/
namespace SymbolicAlgebra

/-- A binary64 value, held as its bits. -/
structure Binary64 where
  bits : UInt64
deriving DecidableEq

namespace Binary64

/-- The weight of the sign bit. -/
def signWeight : Nat := 9223372036854775808

/-- The weight of the lowest exponent bit: the number of fractions. -/
def fractionCount : Nat := 4503599627370496

/-- The bits of the positive infinity, one past those of the largest finite value. -/
def infinityBits : Nat := 9218868437227405312

/-- The bits without the sign. -/
def magnitudeBits (x : Binary64) : Nat := x.bits.toNat % signWeight

def exponentField (x : Binary64) : Nat := x.magnitudeBits / fractionCount

def fractionField (x : Binary64) : Nat := x.magnitudeBits % fractionCount

def signBit (x : Binary64) : Bool := signWeight ≤ x.bits.toNat

def isFinite (x : Binary64) : Bool := x.magnitudeBits < infinityBits

def isNaN (x : Binary64) : Bool := infinityBits < x.magnitudeBits

/-- Either zero. -/
def isZero (x : Binary64) : Bool := x.magnitudeBits == 0

def zero : Binary64 := ⟨0⟩

def one : Binary64 := ⟨4607182418800017408⟩

/-- The value with these magnitude bits and this sign. -/
def ofMagnitude (negative : Bool) (magnitude : Nat) : Binary64 :=
  ⟨UInt64.ofNat (if negative then signWeight + magnitude else magnitude)⟩

/-- Position in the total order of all bit patterns: values with the sign come first, larger
magnitudes foremost, so the negative zero lies just below the positive one. -/
def position (x : Binary64) : Int :=
  if x.signBit then -(x.magnitudeBits : Int) - 1 else x.magnitudeBits

/-- The total order of bit patterns. -/
def compare (x y : Binary64) : Ordering := compareOfLessAndEq x.position y.position

/-- Less than as numbers: the zeros are equal and nothing is below a NaN. -/
def lt (x y : Binary64) : Bool := Float.ofBits x.bits < Float.ofBits y.bits

private def viaFloat (f : Float → Float → Float) (x y : Binary64) : Binary64 :=
  ⟨(f (Float.ofBits x.bits) (Float.ofBits y.bits)).toBits⟩

def add : Binary64 → Binary64 → Binary64 := viaFloat (· + ·)

def sub : Binary64 → Binary64 → Binary64 := viaFloat (· - ·)

def mul : Binary64 → Binary64 → Binary64 := viaFloat (· * ·)

def div : Binary64 → Binary64 → Binary64 := viaFloat (· / ·)

def pow : Binary64 → Binary64 → Binary64 := viaFloat Float.pow

def sqrt (x : Binary64) : Binary64 := ⟨(Float.ofBits x.bits).sqrt.toBits⟩

/-- The opposite sign. -/
def neg (x : Binary64) : Binary64 := ofMagnitude (!x.signBit) x.magnitudeBits

def abs (x : Binary64) : Binary64 := ofMagnitude false x.magnitudeBits

/-- The magnitude of a finite value as a natural number times a power of two. -/
def significand (x : Binary64) : Nat × Int :=
  if x.exponentField = 0 then (x.fractionField, -1074)
  else (fractionCount + x.fractionField, (x.exponentField : Int) - 1075)

end Binary64

end SymbolicAlgebra
