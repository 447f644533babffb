import SymbolicAlgebra.Calculus.Elementary
import SymbolicAlgebra.Calculus.PartsOrder

/-! The strategies of integration. Each takes the integral of what it leads to as a parameter, so
that the recursion between them is written in one place. -/
namespace SymbolicAlgebra

/-- What gave the outermost step of an antiderivative. -/
inductive Strategy where
  | table
  | linearity
  | constantMultiple
  | reduction
  | rationalFunction
  | substitution
  | byParts
  | expansion
  | factoring
deriving DecidableEq

/-- Finds an antiderivative in a symbol; the flag allows integration by parts. -/
abbrev Integral := String → Bool → Expr → Option (Expr × Strategy)

/-- The antiderivative alone. -/
def Integral.expr? (integral : Integral) (x : String) (byParts : Bool) (e : Expr) : Option Expr :=
  (integral x byParts e).map Prod.fst

/-! ## Reduction formulas -/

/-- The largest power of a function that is reduced. -/
def reductionLimit : Int := 12

/-- A power with the exponents zero and one written out. -/
def Expr.raised (base : Expr) (n : Int) : Expr :=
  if n = 0 then .one else if n = 1 then base else .pow base (.ofInt n)

/-- The function and the exponent of a power of a call of the symbol, within the limit. -/
def functionPower? (x : String) : Expr → Option (NamedFunction × Int)
  | .node .power [.call f [arg], .number y] =>
    match y.int64? with
    | some n => if 2 ≤ n ∧ n ≤ reductionLimit ∧ arg.isIdent x then some (f, n) else none
    | none => none
  | _ => none

/-- The equation `∫ f ^ n = boundary + weight * ∫ f ^ (n - 2)`. -/
structure Reduction where
  boundary : Expr
  weight : Expr

/-- The formula that lowers a power of a circular or hyperbolic function of the symbol by two. -/
def reductionOf? (x : String) (n : Int) (f : NamedFunction) : Option Reduction :=
  let call (g : NamedFunction) : Expr := .apply g (.ident x)
  let ratio (p q : Int) : Expr := .ofNumeral (.ofQuotient p q)
  let mixed (p q k : Int) (g : NamedFunction) : Expr :=
    (ratio p q).times (.product [(call f).raised k, call g])
  let lone (p : Int) : Expr := (ratio p (n - 1)).times ((call f).raised (n - 1))
  match f with
  | .circular .sin => some ⟨mixed (-1) n (n - 1) .cos, ratio (n - 1) n⟩
  | .circular .cos => some ⟨mixed 1 n (n - 1) .sin, ratio (n - 1) n⟩
  | .hyperbolic .sin => some ⟨mixed 1 n (n - 1) .cosh, ratio (1 - n) n⟩
  | .hyperbolic .cos => some ⟨mixed 1 n (n - 1) .sinh, ratio (n - 1) n⟩
  | .circular .sec => some ⟨mixed 1 (n - 1) (n - 2) .tan, ratio (n - 2) (n - 1)⟩
  | .circular .csc => some ⟨mixed (-1) (n - 1) (n - 2) .cot, ratio (n - 2) (n - 1)⟩
  | .circular .tan => some ⟨lone 1, .ofInt (-1)⟩
  | .circular .cot => some ⟨lone (-1), .ofInt (-1)⟩
  | .hyperbolic .tan => some ⟨lone (-1), .one⟩
  | .hyperbolic .cot => some ⟨lone (-1), .one⟩
  | _ => none

def integrateReduced (deeper : Integral) (x : String) (e : Expr) : Option Expr := do
  let (f, n) ← functionPower? x e
  let r ← reductionOf? x n f
  if r.weight.isZero then some r.boundary
  else
    let rest ← deeper.expr? x false ((Expr.apply f (.ident x)).raised (n - 2))
    some (.sum [r.boundary, r.weight.times rest])

/-! ## Products of sines and cosines -/

/-- A sine or cosine of a linear argument: whether it is a sine, and the argument. -/
def linearSine? (x : String) : Expr → Option (Bool × Expr)
  | .call .sin [arg] => if arg.degree? [x] = some 1 then some (true, arg) else none
  | .call .cos [arg] => if arg.degree? [x] = some 1 then some (false, arg) else none
  | _ => none

/-- A term without its sign, and whether it had one. -/
def dropSign (e : Expr) : Expr × Bool :=
  if e.asMultiple.1.isNegative then (normalForm e.negate, true) else (e, false)

/-- Twice the product of two sines or cosines as a sum, by sum and difference of their arguments;
`flipped` says that the difference was taken the other way round. -/
def productToSum (firstSine secondSine flipped : Bool) (total difference : Expr) : Expr :=
  match firstSine, secondSine with
  | true, true => .sub (.apply .cos difference) (.apply .cos total)
  | false, false => .sum [.apply .cos difference, .apply .cos total]
  | _, _ =>
    if flipped then .sub (.apply .sin total) (.apply .sin difference)
    else .sum [.apply .sin total, .apply .sin difference]

/-- A product of two sines or cosines of linear arguments as half a sum. -/
def sineProduct? (x : String) (a b : Expr) : Option Expr := do
  let (aSine, u) ← linearSine? x a
  let (bSine, v) ← linearSine? x b
  let (first, second) := if !aSine && bSine then (v, u) else (u, v)
  let total := normalForm (.sum [first, second])
  let (difference, flipped) := dropSign (normalForm (.sub first second))
  if total.isZero || difference.isZero then none
  else
    let sum := productToSum (aSine || bSine) (aSine && bSine) flipped total difference
    some (normalForm (.div sum (.ofInt 2)))

def integrateSineProduct (deeper : Integral) (x : String) : Expr → Option Expr
  | .node .multiply [a, b] => (sineProduct? x a b).bind (deeper.expr? x false)
  | _ => none

/-! ## Rational functions -/

/-- The antiderivative of the remainder over the divisor: a logarithm if that is linear; otherwise
the proper fraction is integrated, unless nothing was divided out. -/
def remainderIntegral (deeper : Integral) (x : String) (divisor quotient remainder : Expr)
    (degree : Int) : Option Expr :=
  if degree = 1 then
    let R := symbolicCoefficients normalForm
    (Polynomial.ofExpr? R x divisor).map fun p =>
      .product [.div remainder (p.coeff R.toCoefficientRing 1), Expr.logOfAbs divisor]
  else if quotient.isZero then none
  else deeper.expr? x true (.div remainder divisor)

/-- A quotient of polynomials by long division. -/
def integrateDivided (deeper : Integral) (x : String) : Expr → Option Expr
  | .node .divide [n, d] => do
    let degree ← d.degree? [x]
    if degree < 1 then none
    else
      let _ ← n.degree? [x]
      let (quotient, remainder) ← polynomialQuotient? normalForm n d [x]
      let whole ← if quotient.isZero then some [] else do some [← deeper.expr? x false quotient]
      let proper ←
        if remainder.isZero then some []
        else do some [← remainderIntegral deeper x d quotient remainder degree]
      some (.sum (whole ++ proper))
  | _ => none

/-! ## Substitution, expansion -/

/-- The first candidate whose substitution leads to an integral, put back. -/
def integrateSubstituted (deeper : Integral) (x : String) (limit : Nat) (e : Expr) : Option Expr :=
  (e.candidates x limit).findSome? fun candidate =>
    (substitution? x candidate e).bind fun s =>
      (deeper.expr? s.symbol true s.integrand).map fun f =>
        s.scale.times (f.replaceIdent s.symbol candidate).expr

/-- A sum or a difference. -/
def Expr.isSum (e : Expr) : Bool := e.isNode .add || e.isNode .subtract

/-- Multiplies out and integrates the sum that results. -/
def integrateExpanded (deeper : Integral) (x : String) (byParts : Bool) (e : Expr) : Option Expr :=
  let distributed := distributeFully e
  if distributed.changed then
    let expanded := normalForm distributed.expr
    if expanded.isSum ∧ expanded ≠ e then deeper.expr? x byParts expanded else none
  else none

/-! ## Parts -/

/-- The free factor by which a leftover integrand is a multiple of the integrand. -/
def ratioTo? (x : String) (residual integrand : Expr) : Option Expr :=
  let (k, rest) := residual.asMultiple
  let (j, other) := integrand.asMultiple
  if rest = other ∧ !j.isZero then some (.ofNumeral (k.div j))
  else
    let ratio := normalForm (.div residual integrand)
    if !ratio.mentions x && !ratio.isNaN && !ratio.isZero then some ratio else none

/-- The equation `∫ f = known + multiple * ∫ f` for an integrand `f`. -/
structure PartsEquation where
  known : Expr
  multiple : Expr

/-- Integrates by parts up to `budget` times over. The integral at `n` is one that may go `n` levels
deep. -/
def partsEquation (integral : Nat → Integral) (x : String) (integrand : Expr) :
    Nat → Expr → Option PartsEquation
  | 0, _ => none
  | budget + 1, e => do
    let parts ← partsOf? x e
    let v ← (integral budget).expr? x false parts.dv
    let du ← (derivative x parts.u).toOption
    let boundary := Expr.product [parts.u, v]
    let residual := normalForm (.product [v, du])
    if residual.isZero then some ⟨boundary, .zero⟩
    else
      match ratioTo? x residual integrand with
      | some k => some ⟨boundary, k.negate⟩
      | none =>
        match (integral budget).expr? x false residual with
        | some rest => some ⟨.sub boundary rest, .zero⟩
        | none =>
          let (coefficient, rest) := residual.asMultiple
          let (free, inner) := freeAndBound x rest
          let scale := Expr.scale coefficient free
          let next ← partsEquation integral x integrand budget inner
          some ⟨.sub boundary (scale.times next.known), scale.negate.times next.multiple⟩

/-- Integrates by `∫ u dv = u v - ∫ v du`. Where the integrand comes back the equation is solved for
it. -/
def integrateByParts (integral : Nat → Integral) (x : String) (budget : Nat) (e : Expr) :
    Option Expr :=
  (partsEquation integral x e budget e).bind fun equation =>
    let multiple := normalForm equation.multiple
    if multiple.isZero then some equation.known
    else
      let divisor := normalForm (.sub .one multiple)
      if divisor.isZero || divisor.isNaN then none else some (.div equation.known divisor)

/-- Pulls the shared factor out of a sum and tries substitution and parts on the product. -/
def integrateFactored (integral : Nat → Integral) (x : String) (limit : Nat) (byParts : Bool)
    (budget : Nat) (e : Expr) : Option Expr :=
  if e.isSum then
    let factored := factorShared (toSums e).expr
    if !factored.changed || factored.expr.isNode .add then none
    else
      integrateSubstituted (integral (budget - 1)) x limit factored.expr <|>
        if byParts then integrateByParts integral x budget factored.expr else none
  else none

end SymbolicAlgebra
