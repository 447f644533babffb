import SymbolicAlgebra.Factor.Content

/-! Quadratics in one unknown, over the rationals or in binary64. -/
namespace SymbolicAlgebra

/-- The only unknown of a polynomial and its coefficients, from the highest exponent down. -/
def unknownAndCoefficients? (integral : Bool) (e : Expr) : Option (String × List Numeral) :=
  match e.unknowns with
  | [unknown] => (e.coefficients? integral).map fun cs => (unknown, cs)
  | _ => none

/-- The sum `p * x + q`, as a difference for a negative `q`. -/
def linearSum (unknown : String) (p q : Numeral) : Expr :=
  (Expr.sum (.scale p (.ident unknown) :: if q.isZero then [] else [.number q])).differenceForm

/-- The factor `d * x - n` of a polynomial with the root `n / d`. -/
def factorOfRoot (unknown : String) (root : Rat) : Expr :=
  linearSum unknown (.ofInt root.den) (.ofInt (-root.num))

/-- A quadratic without discriminant as a multiple of a square. -/
def multipleOfSquare? (unknown : String) (a b c : Numeral) : Option Expr := do
  let divisor ← (a.gcd? b).bind fun g => g.gcd? c
  let content := if a.isNegative then divisor.neg else divisor
  let p ← (a.div content).sqrt?
  let q ← (c.div content).sqrt?
  let q := if (b.div content).isNegative then q.neg else q
  let square := Expr.pow (linearSum unknown p q) (.ofInt 2)
  some (if content.isOne then square else .product [.number content, square])

/-- The factors of a quadratic with the exact roots `r` and `s`. -/
def splitQuadratic (unknown : String) (a : Numeral) (r s : Rat) : Expr :=
  let scale := a.div ((Numeral.ofInt r.den).mul (.ofInt s.den))
  .product ((if scale.isOne then [] else [.number scale]) ++
    [factorOfRoot unknown r, factorOfRoot unknown s])

/-- Factors a quadratic with integer coefficients over the rationals. A constant term of zero is
left to the common factor. -/
def factorQuadraticExactly (e : Expr) : Step :=
  match unknownAndCoefficients? true e with
  | some (unknown, [a, b, c]) =>
    if c.isZero then .same e
    else
      let discriminant := (b.mul b).sub (((Numeral.ofInt 4).mul a).mul c)
      if discriminant.isZero then
        match multipleOfSquare? unknown a b c with
        | some square => .new square
        | none => .same e
      else if discriminant.isNegative then .same e
      else
        match discriminant.sqrt? with
        | some root =>
          let twice := (Numeral.ofInt 2).mul a
          match ((b.neg.add root).div twice).rational?, ((b.neg.sub root).div twice).rational? with
          | some r, some s => .new (splitQuadratic unknown a r s)
          | _, _ => .same e
        | none => .same e
  | _ => .same e

namespace Binary64

def four : Binary64 := ⟨4616189618054758400⟩

def two : Binary64 := ⟨4611686018427387904⟩

def le (x y : Binary64) : Bool := x.lt y || (Float.ofBits x.bits == Float.ofBits y.bits)

end Binary64

/-- The discriminant counts as zero within `tolerance` of the square of the middle coefficient, or
of one if that is less. -/
def negligible (tolerance discriminant scale : Binary64) : Bool :=
  discriminant.abs.le (tolerance.mul (if scale.abs.lt .one then .one else scale.abs))

/-- Factors a quadratic `a x² + b x + c` in binary64. -/
def factorFloatQuadratic? (unknown : String) (tolerance a b c : Binary64) : Option Expr :=
  if a.isZero || !a.isFinite || !b.isFinite || !c.isFinite then none
  else
    let square := b.mul b
    let discriminant := square.sub ((Binary64.four.mul a).mul c)
    let twice := Binary64.two.mul a
    let lead (factors : List Expr) : Expr :=
      .product (if a = .one then factors else .number (.ofBinary64 a) :: factors)
    let shifted (x : Binary64) : Expr := linearSum unknown .one (.ofBinary64 x)
    if negligible tolerance discriminant square then
      some (lead [.pow (shifted (b.div twice)) (.ofInt 2)])
    else if discriminant.lt .zero then none
    else
      let root := discriminant.sqrt
      let first := (b.neg.add root).div twice
      let second := (b.neg.sub root).div twice
      some (lead [shifted first.neg, shifted second.neg])

/-- Factors a quadratic exactly if it can be, otherwise in binary64. -/
def factorQuadraticNearly (tolerance : Binary64) (e : Expr) : Step :=
  let exactly := factorQuadraticExactly e
  if exactly.changed then exactly
  else
    match unknownAndCoefficients? false e with
    | some (unknown, [a, b, c]) =>
      match a.binary64?, b.binary64?, c.binary64? with
      | some x, some y, some z =>
        match factorFloatQuadratic? unknown tolerance x y z with
        | some factored => .new factored
        | none => .same e
      | _, _, _ => .same e
    | _ => .same e

end SymbolicAlgebra
