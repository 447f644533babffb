import SymbolicAlgebra.Number.Binary64

/-! The binary64 value nearest to a quotient of natural numbers, ties to the even neighbour. -/
namespace SymbolicAlgebra

/-- The quotient `n / d` rounded to an integer, a half going to the even neighbour. -/
def divHalfEven (n d : Nat) : Nat :=
  let q := n / d
  let twice := 2 * (n % d)
  if twice < d then q else if d < twice then q + 1 else q + q % 2

/-- The quotient `n * 2 ^ -e / d` rounded to an integer, halves to even. -/
def divScaledHalfEven (n d : Nat) (e : Int) : Nat :=
  match e with
  | .ofNat k => divHalfEven n (d <<< k)
  | .negSucc k => divHalfEven (n <<< (k + 1)) d

/-- Whether `2 ^ e ≤ n / d`. -/
def reachesPowerOfTwo (n d : Nat) (e : Int) : Bool :=
  match e with
  | .ofNat k => d <<< k ≤ n
  | .negSucc k => d ≤ n <<< (k + 1)

/-- The floor of the base-two logarithm of `n / d`, for positive `n` and `d`. -/
def floorLog2Quotient (n d : Nat) : Int :=
  let e : Int := (n.log2 : Int) - d.log2
  if reachesPowerOfTwo n d e then e else e - 1

namespace Binary64

/-- The exponent of the last place kept for values from `2 ^ e` up to `2 ^ (e + 1)`: 53 binary
places, and never below the place of the least positive value. -/
def lastPlace (e : Int) : Int := max (e - 52) (-1074)

/-- The magnitude bits nearest to `n / d`; from half a place above the largest finite value on,
those of the infinity. The hidden bit of a normal value carries into the exponent field, so one
sum serves normal and subnormal values. -/
def nearestMagnitude (n d : Nat) : Nat :=
  if n = 0 then 0
  else
    let place := lastPlace (floorLog2Quotient n d)
    let field := (place + 1074).toNat
    min infinityBits (field * fractionCount + divScaledHalfEven n d place)

/-- The value nearest to a rational number. A negative number too small to be kept gives the
negative zero. -/
def ofRat (r : Rat) : Binary64 := ofMagnitude (r.num < 0) (nearestMagnitude r.num.natAbs r.den)

end Binary64

end SymbolicAlgebra
