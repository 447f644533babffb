/-! The functions that calls name: the circular and hyperbolic families with their inverses, a few
more that have rules of their own, and all others by name alone. -/
namespace SymbolicAlgebra

/-- The six ratios shared by the circular and hyperbolic families. -/
inductive Ratio where
  | sin | cos | tan | csc | sec | cot
deriving DecidableEq

namespace Ratio

def name : Ratio → String
  | .sin => "sin"
  | .cos => "cos"
  | .tan => "tan"
  | .csc => "csc"
  | .sec => "sec"
  | .cot => "cot"

def rank : Ratio → Nat
  | .sin => 0
  | .cos => 1
  | .tan => 2
  | .csc => 3
  | .sec => 4
  | .cot => 5

/-- The ratio `1 / r`. -/
def reciprocal : Ratio → Ratio
  | .sin => .csc
  | .cos => .sec
  | .tan => .cot
  | .csc => .sin
  | .sec => .cos
  | .cot => .tan

/-- The two even ratios; the other four are odd. -/
def isEven : Ratio → Bool
  | .cos | .sec => true
  | _ => false

def all : List Ratio := [.sin, .cos, .tan, .csc, .sec, .cot]

end Ratio

inductive NamedFunction where
  | circular (ratio : Ratio)
  | arcCircular (ratio : Ratio)
  | hyperbolic (ratio : Ratio)
  | arcHyperbolic (ratio : Ratio)
  | ln
  | log
  | abs
  | sqrt
  | sgn
  | other (name : String)
deriving DecidableEq

namespace NamedFunction

@[match_pattern] abbrev sin : NamedFunction := .circular .sin

@[match_pattern] abbrev cos : NamedFunction := .circular .cos

@[match_pattern] abbrev tan : NamedFunction := .circular .tan

@[match_pattern] abbrev csc : NamedFunction := .circular .csc

@[match_pattern] abbrev sec : NamedFunction := .circular .sec

@[match_pattern] abbrev cot : NamedFunction := .circular .cot

@[match_pattern] abbrev sinh : NamedFunction := .hyperbolic .sin

@[match_pattern] abbrev cosh : NamedFunction := .hyperbolic .cos

@[match_pattern] abbrev tanh : NamedFunction := .hyperbolic .tan

@[match_pattern] abbrev csch : NamedFunction := .hyperbolic .csc

@[match_pattern] abbrev sech : NamedFunction := .hyperbolic .sec

@[match_pattern] abbrev coth : NamedFunction := .hyperbolic .cot

def name : NamedFunction → String
  | .circular r => r.name
  | .arcCircular r => "a" ++ r.name
  | .hyperbolic r => r.name ++ "h"
  | .arcHyperbolic r => "a" ++ r.name ++ "h"
  | .ln => "ln"
  | .log => "log"
  | .abs => "abs"
  | .sqrt => "sqrt"
  | .sgn => "sgn"
  | .other name => name

/-- The functions with rules of their own, in canonical order. -/
def known : List NamedFunction :=
  Ratio.all.map .circular ++ Ratio.all.map .arcCircular ++ Ratio.all.map .hyperbolic ++
    Ratio.all.map .arcHyperbolic ++ [.ln, .log, .abs, .sqrt, .sgn]

def ofName (s : String) : NamedFunction := (known.find? fun f => f.name == s).getD (.other s)

def isKnown : NamedFunction → Bool
  | .other _ => false
  | _ => true

def isCircular : NamedFunction → Bool
  | .circular _ => true
  | _ => false

def isHyperbolic : NamedFunction → Bool
  | .hyperbolic _ => true
  | _ => false

/-- An inverse of a circular or hyperbolic ratio. -/
def isInverse : NamedFunction → Bool
  | .arcCircular _ | .arcHyperbolic _ => true
  | _ => false

def isLogarithm : NamedFunction → Bool
  | .ln | .log => true
  | _ => false

/-- Whether `f(-x) = -f(x)`. -/
def isOdd : NamedFunction → Bool
  | .circular r | .arcCircular r | .hyperbolic r | .arcHyperbolic r => !r.isEven
  | _ => false

/-- Whether `f(-x) = f(x)`. -/
def isEven : NamedFunction → Bool
  | .circular r | .hyperbolic r => r.isEven
  | .abs => true
  | _ => false

/-- The function `1 / f`, within the circular and hyperbolic families. -/
def reciprocal? : NamedFunction → Option NamedFunction
  | .circular r => some (.circular r.reciprocal)
  | .hyperbolic r => some (.hyperbolic r.reciprocal)
  | _ => none

/-- Place in the canonical order; all other functions share the last place. -/
def rank : NamedFunction → Nat
  | .circular r => r.rank
  | .arcCircular r => 6 + r.rank
  | .hyperbolic r => 12 + r.rank
  | .arcHyperbolic r => 18 + r.rank
  | .ln => 24
  | .log => 25
  | .abs => 26
  | .sqrt => 27
  | .sgn => 28
  | .other _ => 29

/-- In canonical order; other functions by name, code point by code point. -/
def compare (f g : NamedFunction) : Ordering :=
  match f, g with
  | .other a, .other b => compareOfLessAndEq a b
  | f, g => compareOfLessAndEq f.rank g.rank

end NamedFunction

end SymbolicAlgebra
