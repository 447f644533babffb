import SymbolicAlgebra.Calculus.Derivative

/-! Substitutions: an integrand over a new symbol that stands for an inner expression. -/
namespace SymbolicAlgebra

namespace Expr

/-- Adds a candidate that depends on the symbol, is not the symbol itself and is not there yet. -/
def pushCandidate (x : String) (found : List Expr) (e : Expr) : List Expr :=
  if e.mentions x && !e.isIdent x && !found.contains e then found ++ [e] else found

/-- The candidates at the root of an expression. -/
def rootCandidates (x : String) : Expr → List Expr
  | .call f args => .call f args :: args
  | .node .power [base, exponent] =>
    if base.mentions x then [base, exponent] else [pow base exponent, base, exponent]
  | .node .divide [_, d] => [d]
  | _ => []

mutual

/-- Adds the candidates of an expression, those at the root before those of its children. -/
def collectCandidates (x : String) (found : List Expr) : Expr → List Expr
  | .node op xs =>
    collectAllCandidates x ((rootCandidates x (.node op xs)).foldl (pushCandidate x) found) xs
  | .call f xs =>
    collectAllCandidates x ((rootCandidates x (.call f xs)).foldl (pushCandidate x) found) xs
  | _ => found

def collectAllCandidates (x : String) (found : List Expr) : List Expr → List Expr
  | [] => found
  | e :: es => collectAllCandidates x (collectCandidates x found e) es

end

/-- The inner expressions to try in a substitution, outermost first: calls that depend on the symbol
and their arguments, exponentials, bases and exponents of powers, divisors. -/
def candidates (x : String) (limit : Nat) (e : Expr) : List Expr :=
  (collectCandidates x [] e).take limit

end Expr

/-- The name of a new symbol: `u`, `u1`, `u2`, ... -/
def substitutionName (n : Nat) : String := if n = 0 then "u" else "u" ++ toString n

/-- The first of these names that is not taken. -/
def freshName (taken : List String) : String :=
  (((List.range (taken.length + 1)).map substitutionName).find? fun n => !taken.contains n).getD "u"

/-- An integrand `scale * integrand` in `symbol`, which stands for `candidate`. -/
structure Substitution where
  candidate : Expr
  symbol : String
  /-- The factor free of the symbol. -/
  scale : Expr
  integrand : Expr

/-- The factors without the symbol and those with it, as products. -/
def freeAndBound (x : String) (e : Expr) : Expr × Expr :=
  let (bound, free) := e.factors.partition fun f => f.mentions x
  (.product free, .product bound)

/-- The variable of a linear polynomial in terms of its value `u`. -/
def variableOfLinear? (x : String) (candidate u : Expr) : Option Expr :=
  let R := symbolicCoefficients normalForm
  match Polynomial.ofExpr? R x candidate with
  | some p =>
    if p.degree? = some 1 then
      some (.div (.sub u (p.coeff R.toCoefficientRing 0)) (p.coeff R.toCoefficientRing 1))
    else none
  | none => none

/-- An integrand over the new symbol, rid of the old one, which a linear candidate gives in terms of
the new one. -/
def inNewSymbol? (x : String) (candidate u result : Expr) : Option Expr :=
  let result :=
    if result.mentions x then
      (variableOfLinear? x candidate u).map fun inverse =>
        normalForm (result.replaceIdent x inverse).expr
    else some (normalForm result)
  result.filter fun e => !e.mentions x && !e.isNaN

/-- The integrand over a new symbol that stands for the candidate: the candidate is replaced and the
integrand divided by its derivative, or the other way about. -/
def substitution? (x : String) (candidate e : Expr) : Option Substitution :=
  match derivative x candidate with
  | .error _ => none
  | .ok slope =>
    if slope.isZero || slope.isNaN then none
    else
      let symbol := freshName e.identifiers
      let u := Expr.ident symbol
      let inNewSymbol := inNewSymbol? x candidate u
      let result :=
        inNewSymbol (normalForm (.div (Expr.replace candidate u e).expr slope)) <|>
          inNewSymbol (Expr.replace candidate u (normalForm (.div e slope))).expr
      result.map fun g =>
        let (coefficient, rest) := g.asMultiple
        let (free, integrand) := freeAndBound symbol rest
        { candidate, symbol, scale := .scale coefficient free, integrand }

/-- Whether no candidate gives a substitution. -/
def lacksSubstitution (x : String) (limit : Nat) (e : Expr) : Bool :=
  (e.candidates x limit).all fun candidate => (substitution? x candidate e).isNone

end SymbolicAlgebra
