import SymbolicAlgebra.Expr.ComplexConstant
import SymbolicAlgebra.Expr.Order
import SymbolicAlgebra.Sum.SquareIdentity

/-! Sums: constants are added, like terms gathered, identities between squares applied. -/
namespace SymbolicAlgebra

/-- A numeral, complex numeral or quotient of two exact numerals. -/
def Expr.isAddedConstant (e : Expr) : Bool := e.complex?.isSome

/-- The constant of a sum: a single one as it is written, several added up. -/
def addedConstant : List Expr → Option Expr
  | [] => none
  | [c] => some c
  | cs => some (.ofNumeral ((cs.filterMap Expr.numeral?).foldl Numeral.add .zero))

/-- A sum of which complex constants are already folded. -/
def collectAddends (folded : Bool) (xs : List Expr) : Step :=
  let (constants, terms) := xs.partition Expr.isAddedConstant
  let trailing := (xs.getLast?.map Expr.isAddedConstant).getD false
  let constant := addedConstant constants
  if 1 < constants.length ∧ (constant.map Expr.isNaN).getD false then .new .nan
  else
    let groups := TermGroup.gather terms
    let moved := 1 < constants.length || (constants.length == 1 && !trailing)
    let changed := folded || moved || groups.length != terms.length
    let identity :=
      if xs.any Expr.isComplex then none
      else useSquareIdentity? groups (constant.bind Expr.numeral?)
    let build (groups : List TermGroup) (constant : Option Expr) : Expr :=
      .sum ((groups.map TermGroup.toExpr).filter (fun e => !e.isZero) ++ constant.toList)
    match identity with
    | some (groups, value) =>
      .new (build groups ((value.filter fun n => !n.isZero).map Expr.ofNumeral))
    | none => ⟨build groups constant, changed⟩

/-- An undefined addend makes the sum undefined; otherwise constants and like terms are gathered. -/
def collectSum (xs : List Expr) : Step :=
  if xs.any Expr.isNaN then .new .nan
  else if xs.any Expr.isComplex then
    collectAddends (1 < (xs.filter Expr.isAddedConstant).length) (Expr.addComplexConstants xs)
  else collectAddends false xs

end SymbolicAlgebra
