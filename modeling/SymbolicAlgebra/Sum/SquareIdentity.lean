import SymbolicAlgebra.Product.Coefficient

/-! Like terms of a sum, and the identities between squares of circular and hyperbolic functions:
`sin² + cos² = 1`, `cosh² - sinh² = 1`, `sec² - tan² = 1` and their kin. -/
namespace SymbolicAlgebra

/-- Terms that agree apart from their coefficient; a single term is kept as it was written. -/
structure TermGroup where
  rest : Expr
  coefficient : Numeral
  asWritten : Option Expr

namespace TermGroup

def toExpr (g : TermGroup) : Expr :=
  match g.asWritten with
  | some term => term
  | none => Expr.scale g.coefficient g.rest

/-- Adds a split term to the group that has its rest, or as a group of its own at the end. -/
def insert (term : Expr) (split : Numeral × Expr) : List TermGroup → List TermGroup
  | [] => [⟨split.2, split.1, some term⟩]
  | g :: gs =>
    if g.rest = split.2 then ⟨g.rest, g.coefficient.add split.1, none⟩ :: gs
    else g :: insert term split gs

/-- The terms in groups, in the order of their first members. -/
def gather (terms : List Expr) : List TermGroup :=
  terms.foldl (fun groups term => insert term term.asMultiple groups) []

end TermGroup

/-- The function and argument of the square of a call with one argument. -/
def Expr.callOfSquare? : Expr → Option (NamedFunction × Expr)
  | .node .power [.call f [arg], .number x] => if x = .ofInt 2 then some (f, arg) else none
  | _ => none

def Expr.callSquared (f : NamedFunction) (arg : Expr) : Expr := .pow (.apply f arg) (.ofInt 2)

namespace NamedFunction

/-- The factor `s` with `f² + s * g² = 1`. -/
def complementSign? : NamedFunction → NamedFunction → Option Int
  | sin, cos => some 1
  | cosh, sinh => some (-1)
  | tanh, .hyperbolic .sec => some 1
  | coth, .hyperbolic .csc => some (-1)
  | sec, tan => some (-1)
  | csc, cot => some (-1)
  | _, _ => none

end NamedFunction

namespace TermGroup

/-- The constant `c` that two groups `c * f²` and `c * s * g²` add up to. -/
def complement? (a b : TermGroup) : Option Numeral :=
  if a.coefficient.isExact then
    match a.rest.callOfSquare?, b.rest.callOfSquare? with
    | some (f, u), some (g, v) =>
      match f.complementSign? g with
      | some s =>
        if u = v ∧ b.coefficient = a.coefficient.mul (.ofInt s) then some a.coefficient else none
      | none => none
    | _, _ => none
  else none

end TermGroup

/-- The first result over all pairs of different positions below `n`, by the first position, then by
the second. -/
def firstPair? (n : Nat) (f : Nat → Nat → Option α) : Option α :=
  (List.range n).findSome? fun i => (List.range n).findSome? fun j => if i = j then none else f i j

/-- The list without its elements at two different positions. -/
def eraseBoth (xs : List α) (i j : Nat) : List α := (xs.eraseIdx (max i j)).eraseIdx (min i j)

/-- Replaces the first two groups that add up to a constant; the constant goes to `constant`. -/
def dropComplements? (groups : List TermGroup) (constant : Option Numeral) :
    Option (List TermGroup × Option Numeral) :=
  firstPair? groups.length fun i j =>
    match groups[i]?, groups[j]? with
    | some a, some b =>
      (a.complement? b).map fun c => (eraseBoth groups i j, some ((constant.getD .zero).add c))
    | _, _ => none

/-- A square with coefficient `c` beside the constant `n` as another square: its function, its
coefficient and the constant that remains. The constant keeps its sign or becomes zero. -/
def convertSquare? (f : NamedFunction) (c n : Numeral) :
    Option (NamedFunction × Numeral × Numeral) :=
  let positive := !c.isNegative && !c.isZero
  match f with
  | .tan => if positive && c.le n then some (.sec, c, n.sub c) else none
  | .cot => if positive && c.le n then some (.csc, c, n.sub c) else none
  | .sec => if positive && n.le c.neg then some (.tan, c, n.add c) else none
  | .csc => if positive && n.le c.neg then some (.cot, c, n.add c) else none
  | .sin => if c.isNegative && c.neg.le n then some (.cos, c.neg, n.add c) else none
  | .cos => if c.isNegative && c.neg.le n then some (.sin, c.neg, n.add c) else none
  | .sinh => if positive && c.le n then some (.cosh, c, n.sub c) else none
  | .cosh => if positive && n.le c.neg then some (.sinh, c, n.add c) else none
  | _ => none

/-- Converts the first square that the constant `n` allows. -/
def convertSquares? (n : Numeral) : List TermGroup → Option (List TermGroup × Numeral)
  | [] => none
  | g :: gs =>
    let converted := g.rest.callOfSquare?.bind fun (f, u) =>
      (convertSquare? f g.coefficient n).map fun (h, c, remaining) =>
        (⟨.callSquared h u, c, none⟩, remaining)
    match converted with
    | some (g, remaining) => some (g :: gs, remaining)
    | none => (convertSquares? n gs).map fun (gs, remaining) => (g :: gs, remaining)

/-- One use of an identity between squares: two groups that add up to a constant, or else one square
beside an exact constant. -/
def useSquareIdentity? (groups : List TermGroup) (constant : Option Numeral) :
    Option (List TermGroup × Option Numeral) :=
  match dropComplements? groups constant with
  | some result => some result
  | none =>
    match constant with
    | some n =>
      if n.isExact then (convertSquares? n groups).map fun (gs, remaining) => (gs, some remaining)
      else none
    | none => none

end SymbolicAlgebra
