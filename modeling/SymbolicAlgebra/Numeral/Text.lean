import SymbolicAlgebra.Number.Shortest
import SymbolicAlgebra.Numeral.Basic

/-! The decimal text of numerals. -/
namespace SymbolicAlgebra

/-- How often the factor `p` can be taken out of `n`, looking `fuel` times at most. -/
def multiplicity (p : Nat) : Nat → Nat → Nat
  | 0, _ => 0
  | fuel + 1, n => if n % p = 0 then 1 + multiplicity p fuel (n / p) else 0

/-- The number of decimal places of a fraction with denominator `d` in lowest terms, if they end:
they do when `d` has no prime factor but two and five. -/
def decimalPlaces? (d : Nat) : Option Nat :=
  let twos := multiplicity 2 d d
  let fives := multiplicity 5 d d
  if d = Nat.pow 2 twos * Nat.pow 5 fives then some (max twos fives) else none

/-- The exact decimal expansion, if it ends. -/
def finiteDecimal? (r : Rat) : Option String :=
  let sign := if r.num < 0 then "-" else ""
  match decimalPlaces? r.den with
  | some 0 => some (sign ++ toString r.num.natAbs)
  | some places =>
    let scaled := r.num.natAbs * Nat.pow 10 places / r.den
    some (sign ++ positionalText scaled (-places))
  | none => none

namespace Numeral

/-- Exact values as their decimal expansion where it ends, all others as the nearest float. -/
def text : Numeral → String
  | .exact r =>
    match finiteDecimal? r with
    | some t => t
    | none => (Binary64.ofRat r).text
  | .float x => x.value.text
  | .nan => "NaN"

end Numeral

end SymbolicAlgebra
