import SymbolicAlgebra.Number.IntegerRoot
import SymbolicAlgebra.Numeral.Basic

/-! Powers by repeated squaring over any multiplication. Powers and roots of numerals: exact where a
rational result exists, in binary64 otherwise. -/
namespace SymbolicAlgebra

/-- The value of `acc * base ^ n`, reading `n` from its lowest bit. -/
def powerOnto (mul : α → α → α) (acc base : α) (n : Nat) : α :=
  if n = 0 then acc
  else powerOnto mul (if n % 2 = 1 then mul acc base else acc) (mul base base) (n / 2)
termination_by n

/-- The largest magnitude of an exponent that is worked out exactly. -/
def exponentLimit : Nat := 4096

/-- The rational whose `n`-th power is `r`: roots of a fraction in lowest terms are taken part by
part. -/
def ratRoot? (r : Rat) (n : Nat) : Option Rat :=
  match exactIntRoot? r.num n, exactRoot? r.den n with
  | some num, some den => some (mkRat num den)
  | _, _ => none

namespace Numeral

/-- An integer power within the exponent limit, undefined for a negative power of zero. -/
def intPower? (base : Rat) (exponent : Int) : Option Numeral :=
  if exponentLimit < exponent.natAbs then none
  else if exponent < 0 ∧ base = 0 then some .nan
  else
    let raised := base.pow exponent.natAbs
    some (.exact (if exponent < 0 then raised.inv else raised))

/-- The power of a rational to the exponent `p / q` as the `p`-th power of the `q`-th root. -/
def ratPower? (base exponent : Rat) : Option Numeral :=
  if exponent.den = 1 then intPower? base exponent.num
  else if 4294967296 ≤ exponent.den then none
  else
    match ratRoot? base exponent.den with
    | some root => intPower? root exponent.num
    | none => none

/-- The power, if it is exact. -/
def power? : Numeral → Numeral → Option Numeral
  | .exact base, .exact exponent => ratPower? base exponent
  | _, _ => none

/-- The power, in binary64 where there is no exact one. -/
def pow (x y : Numeral) : Numeral :=
  match x.power? y with
  | some z => z
  | none =>
    match x.binary64?, y.binary64? with
    | some a, some b => ofBinary64 (a.pow b)
    | _, _ => .nan

/-- The exact `n`-th root of an exact numeral. -/
def root? (x : Numeral) (n : Nat) : Option Numeral :=
  match x with
  | .exact r => (ratRoot? r n).map .exact
  | _ => none

/-- The exact square root. -/
def sqrt? (x : Numeral) : Option Numeral := x.root? 2

end Numeral

end SymbolicAlgebra
