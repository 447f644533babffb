import SymbolicAlgebra.Expr.Sign
import SymbolicAlgebra.Product.Coefficient
import SymbolicAlgebra.Rule.Everywhere

/-! Calls at special arguments, signs drawn out of odd and even functions, reciprocal functions
drawn out of denominators. -/
namespace SymbolicAlgebra

namespace NamedFunction

/-- The value at zero, where it is a number. -/
def atZero? : NamedFunction → Option Expr
  | .circular .sin | .circular .tan | .hyperbolic .sin | .hyperbolic .tan => some .zero
  | .arcCircular .sin | .arcCircular .tan | .arcHyperbolic .sin | .arcHyperbolic .tan => some .zero
  | .abs | .sqrt | .sgn => some .zero
  | .circular .cos | .circular .sec | .hyperbolic .cos | .hyperbolic .sec => some .one
  | _ => none

/-- The value at a numeral other than zero, where it is a number. -/
def atNumeral? (f : NamedFunction) (x : Numeral) : Option Expr :=
  match f with
  | .ln | .log => if x.isOne then some .zero else none
  | .abs => if x.isNaN then none else some (.number x.abs)
  | .sqrt => x.sqrt?.map .number
  | .sgn => if x.isNaN then none else some (.ofInt (if x.isNegative then -1 else 1))
  | _ => none

/-- The value at a special argument. -/
def special? (f : NamedFunction) (arg : Expr) : Option Expr :=
  if arg.isZero then f.atZero?
  else
    match f, arg with
    | f, .number x => f.atNumeral? x
    | .ln, .ident name => if name = "e" then some .one else none
    | .ln, .node .power [base, exponent] => if base.isIdent "e" then some exponent else none
    | _, _ => none

end NamedFunction

/-- A call with one argument, evaluated where the argument is special. -/
def evaluateCall (f : NamedFunction) (arg : Expr) : Step :=
  match f.special? arg with
  | some value => .new value
  | none => .same (.apply f arg)

/-- A call with one argument; odd functions let a sign pass, even ones drop it. -/
def evaluateUnaryCall (f : NamedFunction) (arg : Expr) : Step :=
  if arg.isNegative && f.isOdd then .new (evaluateCall f arg.unsigned).expr.negate
  else if arg.isNegative && f.isEven then .new (evaluateCall f arg.unsigned).expr
  else evaluateCall f arg

/-- The logarithm of `arg` to a base. -/
def evaluateLogarithm (base arg : Expr) : Step :=
  if base = arg then .new .one
  else if arg.isOne then .new .zero
  else .same (.call .log [base, arg])

def evaluateAnyCall : Expr → Step
  | .call f [arg] => evaluateUnaryCall f arg
  | .call .log [base, arg] => evaluateLogarithm base arg
  | e => .same e

/-- Evaluates calls at special arguments and moves signs out of odd and even functions. -/
def evaluateCalls (e : Expr) : Step := everywhere evaluateAnyCall e

/-- The reciprocal of a call of one argument, as a call. -/
def Expr.reciprocalCall? : Expr → Option Expr
  | .call f [arg] => f.reciprocal?.map fun g => .apply g arg
  | _ => none

/-- The factors before the first call that has a reciprocal, that reciprocal and the factors after.
-/
def splitAtReciprocal : List Expr → Option (List Expr × Expr × List Expr)
  | [] => none
  | x :: xs =>
    match x.reciprocalCall? with
    | some r => some ([], r, xs)
    | none => (splitAtReciprocal xs).map fun (before, r, after) => (x :: before, r, after)

/-- Writes `a / sin(x)` as `a * csc(x)`. A product of one factor below the bar is that factor. -/
def raiseReciprocal (n d : Expr) : Step :=
  match splitAtReciprocal d.factors with
  | none => .same (.div n (.product d.factors))
  | some (before, r, after) =>
    let top := Expr.product ((if n.isOne then [] else n.factors) ++ [r])
    let rest := before ++ after
    .new (if rest.isEmpty then top else .div top (.product rest))

def normalizeCall : Expr → Step
  | .node .divide [n, d] => raiseReciprocal n d
  | e => evaluateAnyCall e

/-- Simplifies calls and draws reciprocal functions out of denominators. -/
def normalizeCalls (e : Expr) : Step := everywhere normalizeCall e

/-- A logarithm as a quotient of natural ones; a single argument is taken to base ten. -/
def naturalLogarithm : Expr → Step
  | .call .log [arg] => .new (.div (.ln arg) (.ln (.ofInt 10)))
  | .call .log [base, arg] => .new (.div (.ln arg) (.ln base))
  | e => .same e

end SymbolicAlgebra
