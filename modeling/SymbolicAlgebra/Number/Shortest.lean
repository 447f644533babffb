import SymbolicAlgebra.Number.Rounding

/-! The decimal text of a binary64 value: the fewest digits that read back as the same value,
always in positional notation. -/
namespace SymbolicAlgebra

/-- As many zeros as `count` says. -/
def zeroDigits (count : Nat) : String := "".pushn '0' count

/-- The number `digits * 10 ^ exponent` in positional notation. -/
def positionalText (digits : Nat) (exponent : Int) : String :=
  let text := toString digits
  match exponent with
  | .ofNat k => if digits = 0 then "0" else text ++ zeroDigits k
  | .negSucc k =>
    let places := k + 1
    let padded := zeroDigits (places + 1 - text.length) ++ text
    let split := padded.length - places
    String.ofList (padded.toList.take split) ++ "." ++ String.ofList (padded.toList.drop split)

namespace Binary64

/-- The reals that round to a finite value, in units of a quarter of its last place: the value
itself and the two ends of the interval. Below a power of two the places are half as wide. -/
structure RoundingInterval where
  low : Nat
  value : Nat
  high : Nat
  /-- The exponent of two of the unit. -/
  exponent : Int
  /-- The ends belong to the interval. -/
  closed : Bool

def roundingInterval (x : Binary64) : RoundingInterval :=
  let (m, e) := x.significand
  let narrow := x.fractionField = 0 ∧ 1 < x.exponentField
  { low := 4 * m - (if narrow then 1 else 2), value := 4 * m, high := 4 * m + 2,
    exponent := e - 2, closed := m % 2 = 0 }

/-- The interval on a decimal grid: every bound as a numerator over one common denominator, in
units of `10 ^ place`. -/
structure GridInterval where
  low : Nat
  value : Nat
  high : Nat
  denominator : Nat
  closed : Bool

def RoundingInterval.onGrid (i : RoundingInterval) (place : Int) : GridInterval :=
  let two := Nat.pow 2 i.exponent.natAbs
  let ten := Nat.pow 10 place.natAbs
  let up := (if 0 ≤ i.exponent then two else 1) * (if place < 0 then ten else 1)
  let down := (if i.exponent < 0 then two else 1) * (if 0 ≤ place then ten else 1)
  { low := i.low * up, value := i.value * up, high := i.high * up, denominator := down,
    closed := i.closed }

/-- The grid point `k` lies in the interval. -/
def GridInterval.holds (i : GridInterval) (k : Nat) : Bool :=
  let p := k * i.denominator
  if i.closed then i.low ≤ p && p ≤ i.high else i.low < p && p < i.high

/-- The grid point that stands for the value: of its two neighbours the nearer one in the
interval, the upper one on a tie. -/
def GridInterval.nearest? (i : GridInterval) : Option Nat :=
  let below := i.value / i.denominator
  let remainder := i.value % i.denominator
  let above := if remainder = 0 then below else below + 1
  match i.holds below, i.holds above with
  | true, true => some (if 2 * remainder < i.denominator then below else above)
  | true, false => some below
  | false, true => some above
  | false, false => none

/-- The first grid, from the coarsest one, with a point that reads back. -/
def shortestFrom (i : RoundingInterval) (place : Int) : Nat → Nat × Int
  | 0 => ((i.onGrid place).value / (i.onGrid place).denominator, place)
  | finer + 1 =>
    match (i.onGrid place).nearest? with
    | some digits => (digits, place)
    | none => shortestFrom i (place - 1) finer

/-- A power of ten that is not below any finite value with these bounds. -/
def coarsestPlace (i : RoundingInterval) : Int :=
  -- Here `log₁₀ 2 < 0.30103`, and the value lies below `2 ^ (log2 + 1 + exponent)`.
  ((i.high.log2 : Int) + 1 + i.exponent) * 30103 / 100000 + 1

/-- The digits and the place of the shortest decimal that reads back as the finite value `x`,
without its sign. Seventeen digits always suffice. -/
def shortest (x : Binary64) : Nat × Int :=
  let i := x.roundingInterval
  shortestFrom i (coarsestPlace i) 20

def text (x : Binary64) : String :=
  if x.isNaN then "NaN"
  else
    let sign := if x.signBit then "-" else ""
    if !x.isFinite then sign ++ "inf"
    else if x.isZero then sign ++ "0"
    else
      let (digits, place) := x.shortest
      sign ++ positionalText digits place

end Binary64

end SymbolicAlgebra
