import SymbolicAlgebra.Calculus.ChangeOfVariable
import SymbolicAlgebra.Polynomial.Degree

/-! The choice of `u` and `dv` for integration by parts: inverse functions first, then logarithms,
algebraic, trigonometric and exponential factors. -/
namespace SymbolicAlgebra

namespace Expr

/-- A call of an inverse circular or hyperbolic function. -/
def isInverseCall : Expr → Bool
  | .call f _ => f.isInverse
  | _ => false

def isLogarithmicCall : Expr → Bool
  | .call f _ => f.isLogarithm
  | _ => false

def isCircularCall : Expr → Bool
  | .call f _ => f.isCircular || f.isHyperbolic
  | _ => false

/-- A polynomial in the symbol, a power of it with an exponent free of it, or a root of either. -/
def isAlgebraic (x : String) : Expr → Bool
  | .call .sqrt [radicand] =>
    ((call .sqrt [radicand]).degree? [x]).isSome || isAlgebraic x radicand
  | .node .power [base, exponent] =>
    ((node .power [base, exponent]).degree? [x]).isSome || (base.isIdent x && !exponent.mentions x)
  | e => (e.degree? [x]).isSome

/-- A circular or hyperbolic call, alone or to the power of a numeral. -/
def isTrigonometric : Expr → Bool
  | .node .power [base, .number _] => base.isCircularCall
  | e => e.isCircularCall

/-- A base free of the symbol to an exponent that depends on it. -/
def isExponential (x : String) : Expr → Bool
  | .node .power [base, exponent] => !base.mentions x && exponent.mentions x
  | _ => false

/-- The base of a power with a natural exponent; any other expression itself. -/
def naturalPowerBase : Expr → Expr
  | .node .power [base, .number n] =>
    if n.isInteger && !n.isNegative then base else pow base (.number n)
  | e => e

/-- The place in the order of parts; a lower place is `u` before a higher one. -/
def partsRank? (x : String) (e : Expr) : Option Nat :=
  let base := e.naturalPowerBase
  if base.isInverseCall then some 0
  else if base.isLogarithmicCall then some 1
  else if e.isAlgebraic x then some 2
  else if e.isTrigonometric then some 3
  else if e.isExponential x then some 4
  else none

end Expr

/-- The factor to differentiate and the factor to integrate. -/
structure Parts where
  u : Expr
  dv : Expr

/-- Two factors as parts; on a tie the first is `u`. -/
def orderParts? (x : String) (a b : Expr) : Option Parts :=
  match a.partsRank? x, b.partsRank? x with
  | some m, some n => some (if n < m then ⟨b, a⟩ else ⟨a, b⟩)
  | _, _ => none

/-- The position of the first least number. -/
def leastPosition : List Nat → Nat
  | [] => 0
  | r :: rs => if rs.all (r ≤ ·) then 0 else leastPosition rs + 1

/-- The parts of a product. A single factor is `u` only if it is an inverse or logarithmic call or a
power of one; of three or more the first of least rank is `u`. -/
def partsOf? (x : String) (e : Expr) : Option Parts :=
  match e.factors with
  | [] => none
  | [f] =>
    match f.partsRank? x with
    | some rank => if rank ≤ 1 then some ⟨f, .one⟩ else none
    | none => none
  | [a, b] => orderParts? x a b
  | fs =>
    match fs.mapM (Expr.partsRank? x) with
    | some ranks =>
      let i := leastPosition ranks
      fs[i]?.map fun u => ⟨u, .product (fs.eraseIdx i)⟩
    | none => none

end SymbolicAlgebra
