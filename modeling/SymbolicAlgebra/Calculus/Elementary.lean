import SymbolicAlgebra.Calculus.Derivative

/-! Antiderivatives of the elementary forms in the bare symbol. -/
namespace SymbolicAlgebra

namespace Expr

def logOfAbs (e : Expr) : Expr := ln (apply .abs e)

def half (e : Expr) : Expr := div e (ofInt 2)

/-- The antiderivative of `x ^ exponent`. -/
def integralOfVariablePower (x exponent : Expr) : Expr :=
  if exponent = ofInt (-1) then logOfAbs x
  else
    let raised := normalForm (sum [exponent, one])
    div (pow x raised) raised

/-- The antiderivative of the square of a call with the argument `x`. -/
def integralOfSquare? (x : Expr) : NamedFunction → Option Expr
  | .circular .sec => some (apply .tan x)
  | .circular .csc => some (apply .cot x).negate
  | .hyperbolic .sec => some (apply .tanh x)
  | .hyperbolic .csc => some (apply .coth x).negate
  | _ => none

/-- Powers and exponentials of the symbol, and some squares of functions of it. -/
def integralOfPower? (name : String) (base exponent : Expr) : Option Expr :=
  let x := ident name
  if base = x ∧ !exponent.mentions name then some (integralOfVariablePower x exponent)
  else if exponent = x ∧ !base.mentions name then
    some (if base.isIdent "e" then pow base exponent else div (pow base exponent) (ln base))
  else if exponent = ofInt 2 then
    match base with
    | .call f [arg] => if arg = x then integralOfSquare? x f else none
    | _ => none
  else none

/-- The antiderivative of `1 / √r`. -/
def integralOfRootReciprocal? (x radicand : Expr) : Option Expr :=
  if radicand = normalForm (sub one x.squared) then some (apply (.arcCircular .sin) x)
  else if radicand = normalForm (sum [x.squared, one]) then some (apply (.arcHyperbolic .sin) x)
  else if radicand = normalForm (sub x.squared one) then some (apply (.arcHyperbolic .cos) x)
  else none

/-- The antiderivative of `1 / d`. -/
def integralOfReciprocal? (x d : Expr) : Option Expr :=
  let negatedPower :=
    match d with
    | .node .power [base, .number n] =>
      if base = x then some (integralOfVariablePower x (.number n.neg)) else none
    | _ => none
  if d = x then some (logOfAbs x)
  else if negatedPower.isSome then negatedPower
  else if d = normalForm (sum [x.squared, one]) then some (apply (.arcCircular .tan) x)
  else if d = normalForm (sub one x.squared) then some (apply (.arcHyperbolic .tan) x)
  else (d.argument? .sqrt).bind (integralOfRootReciprocal? x)

/-- The antiderivative of a call with the argument `x`. -/
def integralOfCall? (x : Expr) (f : NamedFunction) : Option Expr :=
  let byX := product [x, apply f x]
  match f with
  | .circular .sin => some (apply .cos x).negate
  | .circular .cos => some (apply .sin x)
  | .circular .tan => some (logOfAbs (apply .cos x)).negate
  | .circular .cot => some (logOfAbs (apply .sin x))
  | .circular .sec => some (logOfAbs (sum [apply .sec x, apply .tan x]))
  | .circular .csc => some (logOfAbs (sum [apply .csc x, apply .cot x])).negate
  | .hyperbolic .sin => some (apply .cosh x)
  | .hyperbolic .cos => some (apply .sinh x)
  | .hyperbolic .tan => some (ln (apply .cosh x))
  | .hyperbolic .cot => some (logOfAbs (apply .sinh x))
  | .hyperbolic .sec => some (apply (.arcCircular .tan) (apply .sinh x))
  | .hyperbolic .csc => some (logOfAbs (apply .tanh x.half))
  | .ln => some (sub byX x)
  | .log => some (div (sub (product [x, ln x]) x) (ln (ofInt 10)))
  | .arcCircular .sin => some (sum [byX, squareRoot (sub one x.squared)])
  | .arcCircular .cos => some (sub byX (squareRoot (sub one x.squared)))
  | .arcCircular .tan => some (sub byX (ln (sum [one, x.squared])).half)
  | .arcHyperbolic .sin => some (sub byX (squareRoot (sum [x.squared, one])))
  | .arcHyperbolic .cos => some (sub byX (squareRoot (sub x.squared one)))
  | .arcHyperbolic .tan => some (sum [byX, (ln (sub one x.squared)).half])
  | .sqrt => some (product [ofRat (mkRat 2 3), pow x (ofRat (mkRat 3 2))])
  | .abs => some byX.half
  | .sgn => some (apply .abs x)
  | _ => none

/-- The antiderivative of a product of two calls with the argument `x`, in this order. -/
def integralOfPair? (x : Expr) (f g : NamedFunction) : Option Expr :=
  match f, g with
  | .circular .sec, .circular .tan => some (apply .sec x)
  | .circular .csc, .circular .cot => some (apply .csc x).negate
  | .hyperbolic .sec, .hyperbolic .tan => some (apply .sech x).negate
  | .hyperbolic .csc, .hyperbolic .cot => some (apply .csch x).negate
  | .circular .sin, .circular .cos => some (apply .sin x).squared.half
  | _, _ => none

/-- The closed form of an antiderivative, for the forms in the table. -/
def tabledIntegral? (name : String) (e : Expr) : Option Expr :=
  let x := ident name
  match e with
  | .ident n => if n = name then some x.squared.half else none
  | .call f [arg] => if arg = x then integralOfCall? x f else none
  | .node .power [base, exponent] => integralOfPower? name base exponent
  | .node .divide [n, d] =>
    if n.mentions name then none
    else
      (integralOfReciprocal? x d).map fun reciprocal =>
        if n.isOne then reciprocal else product [n, reciprocal]
  | .node .multiply [.call f [u], .call g [v]] =>
    if u = x ∧ v = x then integralOfPair? x f g <|> integralOfPair? x g f else none
  | _ => none

end Expr

end SymbolicAlgebra
