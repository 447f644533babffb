import SymbolicAlgebra.Product.Coefficient
import SymbolicAlgebra.Rule.Flatten

/-! Sums under powers, quotients and products, multiplied out. -/
namespace SymbolicAlgebra

/-- The most terms that a product is multiplied out into. -/
def maxDistributedTerms : Nat := 64

/-- The largest power of a sum that is multiplied out. -/
def maxExpandedPower : Nat := 16

/-- The largest number of terms that can be counted. -/
def maxTermCount : Nat := 18446744073709551615

/-- The rounds of repeated distribution. -/
def maxDistributionRounds : Nat := 64

/-- The exponent of a power that may be multiplied out. -/
def Expr.expandedPower? (exponent : Expr) : Option Nat :=
  match exponent.number?.bind Numeral.integer? with
  | some (.ofNat n) => if 2 ≤ n ∧ n ≤ maxExpandedPower then some n else none
  | _ => none

/-- Every term times every one of `terms`, `rounds` times over. -/
def powerTerms (terms : List Expr) : Nat → List Expr → List Expr
  | 0, expanded => expanded
  | rounds + 1, expanded =>
    powerTerms terms rounds (expanded.flatMap fun t => terms.map fun o => t.times o)

/-- Multiplies out a small power of a sum, if at most `limit` terms result. -/
def expandPower (limit : Nat) : Expr → Step
  | .node .power [.node .add terms, exponent] =>
    match exponent.expandedPower? with
    | some n =>
      if Nat.pow terms.length n ≤ limit then .new (.sum (powerTerms terms (n - 1) terms))
      else .same (.pow (.node .add terms) exponent)
    | none => .same (.pow (.node .add terms) exponent)
  | e => .same e

/-- Multiplies out small positive powers of sums. -/
def expandPowers (e : Expr) : Step := everywhere (expandPower maxDistributedTerms) e

/-- Writes `a ^ (b + c)` as `a ^ b * a ^ c`. -/
def splitExponent : Expr → Step
  | .node .power [base, .node .add terms] => .new (.product (terms.map fun t => .pow base t))
  | e => .same e

def expandExponents (e : Expr) : Step := everywhere splitExponent e

/-- Writes `(a + b) / c` as `a / c + b / c`. -/
def splitNumerator : Expr → Step
  | .node .divide [.node .add terms, d] => .new (.sum (terms.map fun t => .div t d))
  | e => .same e

def expandQuotients (e : Expr) : Step := everywhere splitNumerator e

/-- The factors multiplied together from the left. -/
def timesAll : List Expr → Expr
  | [] => .one
  | x :: xs => xs.foldl Expr.times x

/-- The factors before the first sum, its addends and the factors after it. -/
def splitAtSum : List Expr → Option (List Expr × List Expr × List Expr)
  | [] => none
  | .node .add terms :: xs => some ([], terms, xs)
  | x :: xs => (splitAtSum xs).map fun (before, terms, after) => (x :: before, terms, after)

/-- The product with each of the terms in place of the sum. -/
def spread (before terms after : List Expr) : Expr :=
  .sum (terms.map fun t => timesAll (before ++ t :: after))

/-- Multiplies a product over its first sum, unless that has too many terms. -/
def distributeNode : Expr → Step
  | .node .multiply xs =>
    match splitAtSum xs with
    | some (before, terms, after) =>
      if terms.length ≤ maxDistributedTerms then .new (spread before terms after)
      else .same (.node .multiply xs)
    | none => .same (.node .multiply xs)
  | e => .same e

/-- Multiplies products over their first sum. -/
def distribute (e : Expr) : Step := everywhere distributeNode e

/-- Multiplies a product over its sum if it is the only one, so that factored products stay. -/
def distributeLoneSumNode : Expr → Step
  | .node .multiply xs =>
    match splitAtSum xs with
    | some (before, terms, after) =>
      if terms.length ≤ maxDistributedTerms ∧ !after.any (Expr.isNode .add) then
        .new (spread before terms after)
      else .same (.node .multiply xs)
    | none => .same (.node .multiply xs)
  | e => .same e

def distributeLoneSum (e : Expr) : Step := everywhere distributeLoneSumNode e

/-- One round of expanding every power of a sum and distributing every product. -/
def distributionRound (e : Expr) : Step :=
  let expanded := everywhere (expandPower maxTermCount) e
  let distributed := distribute expanded.expr
  let merged := flatten distributed.expr
  ⟨merged.expr, expanded.changed || distributed.changed || merged.changed⟩

/-- Repeats a pass while it fires, at most `rounds` times. -/
def repeatPass (pass : Expr → Step) : Nat → Expr → Step
  | 0, e => .same e
  | rounds + 1, e =>
    let next := pass e
    if next.changed then ⟨(repeatPass pass rounds next.expr).expr, true⟩ else .same next.expr

/-- Expands and distributes until nothing changes. -/
def distributeFully (e : Expr) : Step := repeatPass distributionRound maxDistributionRounds e

end SymbolicAlgebra
