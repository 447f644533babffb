import SymbolicAlgebra.Expr.ComplexConstant
import SymbolicAlgebra.Product.Coefficient
import SymbolicAlgebra.Sum.SquareIdentity

/-! Products: numerals are multiplied, the exponents of equal bases added, and pairs of circular or
hyperbolic functions of one argument reduced to one function or to nothing. -/
namespace SymbolicAlgebra

/-- Factors with one base; a single factor is kept as it was written. -/
structure FactorGroup where
  base : Expr
  exponents : List Expr
  asWritten : Option Expr

/-- The sum of exponents, worked out if all are rational. -/
def exponentSum (exponents : List Expr) : Expr :=
  match exponents.mapM Expr.rational? with
  | some values => .ofRat (values.foldl (· + ·) 0)
  | none => .sum exponents

/-- A power, without an exponent of one; nothing for an exponent of zero. -/
def powerFactor (base exponent : Expr) : Option Expr :=
  if exponent.isZero then none
  else if exponent.isOne then some base
  else some (.pow base exponent)

namespace FactorGroup

def toExpr? (g : FactorGroup) : Option Expr :=
  match g.asWritten with
  | some factor => some factor
  | none => powerFactor g.base (exponentSum g.exponents)

/-- Adds a split factor to the group that has its base, or as a group of its own at the end. -/
def insert (factor : Expr) (split : Expr × Expr) : List FactorGroup → List FactorGroup
  | [] => [⟨split.1, [split.2], some factor⟩]
  | g :: gs =>
    if g.base = split.1 then ⟨g.base, g.exponents ++ [split.2], none⟩ :: gs
    else g :: insert factor split gs

/-- The factors in groups, in the order of their first members. -/
def gather (factors : List Expr) : List FactorGroup :=
  factors.foldl (fun groups factor => insert factor factor.asPower groups) []

end FactorGroup

/-- The product of two ratios as one ratio, or as one (`some none`). -/
def Ratio.times? : Ratio → Ratio → Option (Option Ratio)
  | .sin, .csc | .cos, .sec | .tan, .cot => some none
  | .tan, .cos => some (some .sin)
  | .cot, .sin => some (some .cos)
  | .sin, .sec => some (some .tan)
  | .cos, .csc => some (some .cot)
  | .sec, .cot => some (some .csc)
  | .csc, .tan => some (some .sec)
  | _, _ => none

/-- The product of two functions of one argument, within one family. -/
def NamedFunction.times? : NamedFunction → NamedFunction → Option (Option NamedFunction)
  | .circular r, .circular s => (r.times? s).map (Option.map .circular)
  | .hyperbolic r, .hyperbolic s => (r.times? s).map (Option.map .hyperbolic)
  | _, _ => none

/-- The product of two calls with the same single argument. -/
def Expr.callProduct? : Expr → Expr → Option (Option Expr)
  | .call f [u], .call g [v] =>
    if u = v then (f.times? g).map (Option.map fun h => .apply h u) else none
  | _, _ => none

/-- Replaces the first pair of calls that reduce; the result takes the place of the first. -/
def reduceCalls? (factors : List Expr) : Option (List Expr) :=
  firstPair? factors.length fun i j =>
    match factors[i]?, factors[j]? with
    | some a, some b =>
      (a.callProduct? b).map fun result =>
        match result with
        | none => eraseBoth factors i j
        | some e => (eraseBoth factors i j).insertIdx (min i j) e
    | _, _ => none

/-- A product of which complex numerals are already folded. -/
def collectFactors (folded : Bool) (xs : List Expr) : Step :=
  let (numerals, factors) := xs.partition Expr.isNumber
  let leading := (xs.head?.map Expr.isNumber).getD false
  let coefficient := Expr.numeralProduct numerals
  if coefficient.isNaN then .new .nan
  else if coefficient.isZero then .new .zero
  else
    let groups := FactorGroup.gather factors
    let powers := groups.filterMap FactorGroup.toExpr?
    let reduced := reduceCalls? powers
    let out := reduced.getD powers
    let moved := 1 < numerals.length || (numerals.length == 1 && !leading)
    let changed := folded || moved || groups.length != factors.length || reduced.isSome
    if coefficient.isOne then ⟨.product out, changed || !numerals.isEmpty⟩
    else ⟨.product (.number coefficient :: out), changed⟩

/-- Numerals are multiplied and equal bases gathered. -/
def collectProduct (xs : List Expr) : Step :=
  if xs.any Expr.isComplex then
    collectFactors (1 < (xs.filter Expr.isNumeralFactor).length) (Expr.multiplyComplexConstants xs)
  else collectFactors false xs

end SymbolicAlgebra
