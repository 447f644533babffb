/-! Integer roots: the floor of the `n`-th root of a natural number, by bisection on its bits. -/
namespace SymbolicAlgebra

/-- Sets each of the lowest `bits` bits of `root`, from the highest down, where the `n`-th power
stays at most `value`. -/
def refineRoot (value n : Nat) : Nat → Nat → Nat
  | 0, root => root
  | bits + 1, root =>
    let candidate := root + Nat.pow 2 bits
    refineRoot value n bits (if Nat.pow candidate n ≤ value then candidate else root)

/-- The largest number whose `n`-th power is at most `value`, for positive `n`. A root has at most
`log₂ value / n + 1` bits. -/
def floorRoot (value n : Nat) : Nat := refineRoot value n (value.log2 / n + 1) 0

/-- The number whose `n`-th power is `value`. -/
def exactRoot? (value n : Nat) : Option Nat :=
  if n = 0 then none
  else
    let root := floorRoot value n
    if Nat.pow root n = value then some root else none

/-- The integer whose `n`-th power is `value`; of two, the one that is not negative. -/
def exactIntRoot? (value : Int) (n : Nat) : Option Int :=
  match value with
  | .ofNat v => (exactRoot? v n).map (Int.ofNat ·)
  | .negSucc v => if n % 2 = 0 then none else (exactRoot? (v + 1) n).map (-Int.ofNat ·)

end SymbolicAlgebra
