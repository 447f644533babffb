import SymbolicAlgebra.Expr.Query
import SymbolicAlgebra.NormalForm
import SymbolicAlgebra.Text.Linear

/-! Derivatives by the rules of calculus. -/
namespace SymbolicAlgebra

/-- Why an expression has no derivative. -/
inductive DerivativeError where
  /-- A function without a rule, or one called with a number of arguments that has none. -/
  | unknownFunction (name : String)
  /-- A node without a rule whose operands depend on the symbol. -/
  | notDifferentiable (e : Expr) (symbol : String)
deriving DecidableEq

def DerivativeError.message : DerivativeError → String
  | .unknownFunction name => "no derivative rule for `" ++ name ++ "`"
  | .notDifferentiable e symbol =>
    "cannot differentiate `" ++ e.text ++ "` with respect to `" ++ symbol ++ "`"

namespace Expr

/-- The square of an expression, as a power. -/
def squared (e : Expr) : Expr := pow e (ofInt 2)

def reciprocal (e : Expr) : Expr := div one e

def squareRoot (e : Expr) : Expr := apply .sqrt e

end Expr

namespace NamedFunction

open SymbolicAlgebra.Expr in
/-- The derivative of a known function of one argument at `u`; none for other functions. -/
def derivativeAt? (f : NamedFunction) (u : Expr) : Option Expr :=
  match f with
  | .circular .sin => some (apply .cos u)
  | .circular .cos => some (apply .sin u).negate
  | .circular .tan => some (apply .sec u).squared
  | .circular .csc => some (product [apply .csc u, apply .cot u]).negate
  | .circular .sec => some (product [apply .sec u, apply .tan u])
  | .circular .cot => some (apply .csc u).squared.negate
  | .arcCircular .sin => some (squareRoot (sub one u.squared)).reciprocal
  | .arcCircular .cos => some (squareRoot (sub one u.squared)).reciprocal.negate
  | .arcCircular .tan => some (sum [one, u.squared]).reciprocal
  | .arcCircular .cot => some (sum [one, u.squared]).reciprocal.negate
  | .arcCircular .sec =>
    some (product [apply .abs u, squareRoot (sub u.squared one)]).reciprocal
  | .arcCircular .csc =>
    some (product [apply .abs u, squareRoot (sub u.squared one)]).reciprocal.negate
  | .hyperbolic .sin => some (apply .cosh u)
  | .hyperbolic .cos => some (apply .sinh u)
  | .hyperbolic .tan => some (apply .sech u).squared
  | .hyperbolic .csc => some (product [apply .csch u, apply .coth u]).negate
  | .hyperbolic .sec => some (product [apply .sech u, apply .tanh u]).negate
  | .hyperbolic .cot => some (apply .csch u).squared.negate
  | .arcHyperbolic .sin => some (squareRoot (sum [u.squared, one])).reciprocal
  | .arcHyperbolic .cos => some (squareRoot (sub u.squared one)).reciprocal
  | .arcHyperbolic .tan => some (sub one u.squared).reciprocal
  | .arcHyperbolic .cot => some (sub one u.squared).reciprocal
  | .arcHyperbolic .csc =>
    some (product [apply .abs u, squareRoot (sum [one, u.squared])]).reciprocal.negate
  | .arcHyperbolic .sec =>
    some (product [u, squareRoot (sub one u.squared)]).reciprocal.negate
  | .ln => some u.reciprocal
  | .log => some (product [u, Expr.ln (ofInt 10)]).reciprocal
  | .abs => some (apply .sgn u)
  | .sqrt => some (product [ofInt 2, squareRoot u]).reciprocal
  | .sgn => some zero
  | .other _ => none

end NamedFunction

namespace Expr

/-- The derivative of `a / b` from those of both sides. -/
def quotientDerivative (a b da db : Expr) : Expr :=
  div (sub (product [da, b]) (product [a, db])) (pow b (ofInt 2))

/-- The derivative of `b ^ c` for an exponent free of the symbol. -/
def powerDerivative (base exponent inner : Expr) : Expr :=
  let lowered :=
    match exponent with
    | .number x => ofNumeral (x.sub .one)
    | e => sum [e, ofInt (-1)]
  product [exponent, pow base lowered, inner]

/-- The derivative of `b ^ c` for a base free of the symbol. -/
def exponentialDerivative (base exponent inner : Expr) : Expr :=
  if base.isIdent "e" then product [pow base exponent, inner]
  else product [pow base exponent, ln base, inner]

/-- The derivative of `b ^ c` where both sides depend on the symbol. -/
def generalPowerDerivative (base exponent dBase dExponent : Expr) : Expr :=
  product
    [pow base exponent,
      sum [product [dExponent, ln base], div (product [exponent, dBase]) base]]

mutual

/-- The derivative as the rules give it, not simplified. Subtrees without the symbol have the
derivative zero, whatever they hold. -/
def rawDerivative (x : String) : Expr → Except DerivativeError Expr
  | .ident name => .ok (if name = x then one else zero)
  | .call f args =>
    if !(call f args).mentions x then .ok zero
    else
      match f, args with
      | .log, [base, arg] =>
        if base.mentions x then do
          let top ← if arg.mentions x then do pure (product [arg.reciprocal, ← rawDerivative x arg])
            else pure zero
          let bottom := product [base.reciprocal, ← rawDerivative x base]
          pure (quotientDerivative (ln arg) (ln base) top bottom)
        else do pure (div (← rawDerivative x arg) (product [arg, ln base]))
      | f, [arg] =>
        match f.derivativeAt? arg with
        | some outer => do pure (product [outer, ← rawDerivative x arg])
        | none => .error (.unknownFunction f.name)
      | f, _ => .error (.unknownFunction f.name)
  | .node op xs =>
    if !(node op xs).mentions x then .ok zero
    else
      match op, xs with
      | .add, terms => do pure (sum (← rawDerivatives x terms))
      | .subtract, [a, b] => do pure (sub (← rawDerivative x a) (← rawDerivative x b))
      | .multiply, first :: rest => do productDerivative x first (← rawDerivative x first) rest
      | .divide, [a, b] => do
        let da ← rawDerivative x a
        if b.mentions x then pure (quotientDerivative a b da (← rawDerivative x b))
        else pure (div da b)
      | .power, [base, exponent] =>
        if !exponent.mentions x then do
          pure (powerDerivative base exponent (← rawDerivative x base))
        else do
          let inner ← rawDerivative x exponent
          if !base.mentions x then pure (exponentialDerivative base exponent inner)
          else pure (generalPowerDerivative base exponent (← rawDerivative x base) inner)
      | op, xs => .error (.notDifferentiable (.node op xs) x)
  | _ => .ok zero

def rawDerivatives (x : String) : List Expr → Except DerivativeError (List Expr)
  | [] => .ok []
  | t :: ts => do
    let d ← rawDerivative x t
    pure (d :: (← rawDerivatives x ts))

/-- The derivative of a product of which the factors so far are multiplied into `value`, with the
derivative `derivative`. -/
def productDerivative (x : String) (value derivative : Expr) :
    List Expr → Except DerivativeError Expr
  | [] => .ok derivative
  | factor :: rest => do
    let next ← rawDerivative x factor
    productDerivative x (product [value, factor])
      (sum [product [derivative, factor], product [value, next]]) rest

end

end Expr

/-- The derivative, simplified. -/
def derivative (x : String) (e : Expr) : Except DerivativeError Expr :=
  (e.rawDerivative x).map normalForm

end SymbolicAlgebra
