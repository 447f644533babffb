import SymbolicAlgebra.Number.Rounding

/-! Numerals: exact rationals, finite binary64 floats and the undefined number, with their arithmetic
and total order. -/
namespace SymbolicAlgebra

/-- A finite binary64 value other than the negative zero. -/
structure FiniteFloat where
  value : Binary64
  ordinary : value.isFinite && (!value.isZero || !value.signBit) := by decide
deriving DecidableEq

/-- The numbers an expression holds. `nan` is the result of an undefined operation. -/
inductive Numeral where
  | exact (value : Rat)
  | float (value : FiniteFloat)
  | nan
deriving DecidableEq

def compareRat (a b : Rat) : Ordering := compareOfLessAndEq a b

namespace Numeral

def ofInt (n : Int) : Numeral := .exact n

/-- The quotient of two integers, undefined over zero. -/
def ofQuotient (n d : Int) : Numeral :=
  if d = 0 then .nan else .exact (Rat.divInt n d)

/-- A float as a numeral: an infinity is undefined, and both zeros are the positive one. -/
def ofBinary64 (x : Binary64) : Numeral :=
  if x.isZero then .float ⟨.zero, by decide⟩
  else if h : x.isFinite && (!x.isZero || !x.signBit) then .float ⟨x, h⟩ else .nan

def zero : Numeral := ofInt 0

def one : Numeral := ofInt 1

def isNaN : Numeral → Bool
  | .nan => true
  | _ => false

def isExact : Numeral → Bool
  | .exact _ => true
  | _ => false

def isZero : Numeral → Bool
  | .exact r => r == 0
  | .float x => x.value.isZero
  | .nan => false

def isOne : Numeral → Bool
  | .exact r => r == 1
  | .float x => x.value == .one
  | .nan => false

def isNegative : Numeral → Bool
  | .exact r => r.num < 0
  | .float x => x.value.signBit
  | .nan => false

def isInteger : Numeral → Bool
  | .exact r => r.den == 1
  | _ => false

def rational? : Numeral → Option Rat
  | .exact r => some r
  | _ => none

def integer? : Numeral → Option Int
  | .exact r => if r.den = 1 then some r.num else none
  | _ => none

/-- The integer, if it fits a signed 64-bit word. -/
def int64? (x : Numeral) : Option Int :=
  x.integer?.filter fun n => -9223372036854775808 ≤ n && n ≤ 9223372036854775807

/-- The integer, if it fits an unsigned 64-bit word. -/
def uint64? (x : Numeral) : Option Nat :=
  match x.integer? with
  | some (.ofNat n) => if n < 18446744073709551616 then some n else none
  | _ => none

/-- The integer parts of an exact fraction that is not an integer. -/
def fraction? : Numeral → Option (Int × Nat)
  | .exact r => if r.den = 1 then none else some (r.num, r.den)
  | _ => none

/-- The nearest binary64 value; none for the undefined number. -/
def binary64? : Numeral → Option Binary64
  | .exact r => some (.ofRat r)
  | .float x => some x.value
  | .nan => none

/-- Exact on two rationals, in binary64 otherwise, undefined on the undefined number. -/
def lift₂ (exactly : Rat → Rat → Rat) (nearly : Binary64 → Binary64 → Binary64) :
    Numeral → Numeral → Numeral
  | .nan, _ | _, .nan => .nan
  | .exact a, .exact b => .exact (exactly a b)
  | .exact a, .float b => ofBinary64 (nearly (.ofRat a) b.value)
  | .float a, .exact b => ofBinary64 (nearly a.value (.ofRat b))
  | .float a, .float b => ofBinary64 (nearly a.value b.value)

def add : Numeral → Numeral → Numeral := lift₂ (· + ·) .add

def sub : Numeral → Numeral → Numeral := lift₂ (· - ·) .sub

def mul : Numeral → Numeral → Numeral := lift₂ (· * ·) .mul

/-- The quotient, undefined over any zero. -/
def div (x y : Numeral) : Numeral :=
  if y.isZero then .nan else lift₂ (· / ·) .div x y

def neg : Numeral → Numeral
  | .exact r => .exact (-r)
  | .float x => ofBinary64 x.value.neg
  | .nan => .nan

def abs (x : Numeral) : Numeral := if x.isNegative then x.neg else x

/-- The greatest common divisor of two exact integers. -/
def gcd? (x y : Numeral) : Option Numeral :=
  match x.integer?, y.integer? with
  | some a, some b => some (ofInt (Int.gcd a b))
  | _, _ => none

/-! ## Order -/

/-- Exact values by value, floats by their bits; an exact value stands beside the float nearest
to it, just before that float, and the undefined number comes last. -/
def compare : Numeral → Numeral → Ordering
  | .nan, .nan => .eq
  | .nan, _ => .gt
  | _, .nan => .lt
  | .exact a, .exact b => compareRat a b
  | .float a, .float b => a.value.compare b.value
  | .exact a, .float b => ((Binary64.ofRat a).compare b.value).then .lt
  | .float a, .exact b => (a.value.compare (Binary64.ofRat b)).then .gt

/-- Whether `x ≤ y` in the total order. -/
def le (x y : Numeral) : Bool := x.compare y != .gt

end Numeral

end SymbolicAlgebra
