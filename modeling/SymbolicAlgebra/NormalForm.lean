import SymbolicAlgebra.Expr.Replace
import SymbolicAlgebra.Quotient.FactoredSides
import SymbolicAlgebra.Rule.Arithmetic
import SymbolicAlgebra.Rule.Call
import SymbolicAlgebra.Rule.OperandOrder
import SymbolicAlgebra.Rule.Trim
import SymbolicAlgebra.Sum.Expansion

/-! The normal form of an expression: the tree that the rules, applied in rounds, leave as it is.

A difference is a sum with a negated addend while the passes run, and is restored after the last
round. Factoring simplifies the coefficients of polynomials, which hold no identifier; on such trees
it does not come to that again, so two levels of normal forms are all there is. -/
namespace SymbolicAlgebra

/-- How many rounds may run. -/
structure RoundLimits where
  /-- The limit, whatever the size of the tree. -/
  maxRounds : Option Nat := none
  roundsPerNode : Nat := 4
  minRounds : Nat := 32

/-- The limit for a tree; a product past the largest word counts as that word. -/
def RoundLimits.limit (options : RoundLimits) (size : Nat) : Nat :=
  match options.maxRounds with
  | some rounds => rounds
  | none => max options.minRounds (min 18446744073709551615 (size * options.roundsPerNode))

/-- The passes of one round. Coefficients of polynomials are kept simple by `simplify`. -/
def passes (simplify : Expr → Expr) : List (Expr → Step) :=
  [toSums, flatten, normalizeCalls, expandPowers, distributeLoneSum, collectLike, trim, flatten,
    orderOperands, reduceQuotients, reduceFactored simplify]

/-- One round of all passes. -/
def round (simplify : Expr → Expr) (e : Expr) : Expr :=
  (passes simplify).foldl (fun e pass => (pass e).expr) e

/-- Rounds until one leaves the tree as it is, at most `limit` of them. -/
def settle (simplify : Expr → Expr) : Nat → Expr → Expr
  | 0, e => e
  | limit + 1, e =>
    let next := round simplify e
    if next = e then e else settle simplify limit next

/-- Runs the passes to a fixed point within the limit of `options`. -/
def normalizeUsing (simplify : Expr → Expr) (options : RoundLimits) (e : Expr) : Step :=
  let settled := settle simplify (options.limit e.size) (toSums e).expr
  let result := (toDifferences settled).expr
  ⟨result, result != e⟩

/-- The simplest form of an expression without identifiers. -/
def normalFormClosed (e : Expr) : Expr := (normalizeUsing id {} e).expr

/-- Runs the passes to a fixed point, within the limit that `options` gives. -/
def normalizeWithin (options : RoundLimits) (e : Expr) : Step :=
  normalizeUsing normalFormClosed options e

/-- Runs the passes to a fixed point, within the limit for the size of the tree. -/
def normalize (e : Expr) : Step := normalizeWithin {} e

/-- The tree that `normalize` settles on. -/
def normalForm (e : Expr) : Expr := (normalize e).expr

/-- Puts an expression for an identifier and simplifies, if the identifier occurs. -/
def substitute (name : String) (replacement e : Expr) : Expr :=
  let replaced := e.replaceIdent name replacement
  if replaced.changed then normalForm replaced.expr else replaced.expr

/-- Writes logarithms to any base by natural ones, then simplifies. -/
def toNaturalLogarithms (e : Expr) : Step :=
  let result := normalForm (everywhere naturalLogarithm e).expr
  ⟨result, result != e⟩

end SymbolicAlgebra
