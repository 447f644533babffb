import SymbolicAlgebra.Numeral.Basic
import SymbolicAlgebra.Quotient.LowestTerms
import SymbolicAlgebra.Rule.Everywhere

/-! The factor that all addends of a sum share: `x + y * x` is `x * (1 + y)`. -/
namespace SymbolicAlgebra

/-- A term as its coefficient and the powers of its other factors; a numeral has no powers. -/
def FactoredTerm.ofTerm (term : Expr) : FactoredTerm :=
  let (coefficient, rest) := term.asMultiple
  ⟨coefficient, if rest.isOne then [] else rest.factors.map Expr.asPower⟩

/-- The exponent of the first power with the given base. -/
def exponentOf? (base : Expr) (powers : List Power) : Option Expr :=
  (powers.find? fun p => p.1 = base).map Prod.snd

/-- The least of some rationals. -/
def leastOf : Rat → List Rat → Rat
  | least, [] => least
  | least, r :: rs => leastOf (if r < least then r else least) rs

/-- The exponent that all of these can give up: the common one, or the least if that is a positive
integer. -/
def sharedExponent? : List Expr → Option Expr
  | [] => none
  | e :: es =>
    if es.all (· = e) then some e
    else
      match (e :: es).mapM Expr.rational? with
      | some (r :: rs) =>
        let least := leastOf r rs
        if least.den = 1 ∧ 0 < least.num then some (.ofRat least) else none
      | _ => none

/-- The powers of the first term that every term shares, each base once. -/
def sharedPowers (terms : List FactoredTerm) (seen : List Power) : List Power → List Power
  | [] => seen
  | (base, _) :: rest =>
    if seen.any fun p => p.1 = base then sharedPowers terms seen rest
    else
      match (terms.mapM fun t => exponentOf? base t.powers).bind sharedExponent? with
      | some exponent => sharedPowers terms (seen ++ [(base, exponent)]) rest
      | none => sharedPowers terms seen rest

/-- What is left of a power after the shared ones are taken out. -/
def powerLeft? (shared : List Power) (p : Power) : Option Expr :=
  match exponentOf? p.1 shared with
  | none => some (FactoredTerm.powerExpr p)
  | some taken =>
    if p.2 = taken then none
    else
      match p.2.rational?, taken.rational? with
      | some r, some s => some (FactoredTerm.powerExpr (p.1, .ofRat (r - s)))
      | _, _ => none

/-- The greatest common divisor of integer coefficients, continuing from `acc`. -/
def contentFrom? (acc : Numeral) : List Numeral → Option Numeral
  | [] => some acc
  | c :: cs => (acc.gcd? c).bind fun g => contentFrom? g cs

/-- A factor of a sum and the addends that remain. -/
structure SharedFactor where
  common : Expr
  rest : List Expr

/-- The factor that all of two or more terms share: the content of integer coefficients and the
shared powers. With `leadPositive` the first term that remains is positive. -/
def sharedFactor? (leadPositive : Bool) (terms : List Expr) : Option SharedFactor :=
  match terms.map FactoredTerm.ofTerm with
  | first :: second :: others =>
    let split := first :: second :: others
    let divisor := contentFrom? .zero (split.map FactoredTerm.coefficient)
    let magnitude := (divisor.filter fun g => !g.isZero).getD .one
    let content :=
      if leadPositive && first.coefficient.isNegative then magnitude.neg else magnitude
    let shared := sharedPowers split [] first.powers
    if content.isOne && shared.isEmpty then none
    else
      let remaining (t : FactoredTerm) : Expr :=
        .scale (t.coefficient.div content) (.product (t.powers.filterMap (powerLeft? shared)))
      some
        { common := .scale content (.product (shared.map FactoredTerm.powerExpr))
          rest := split.map remaining }
  | _ => none

/-- Writes a sum as a product with its shared factor, unless only numerals remain. -/
def factorSharedNode : Expr → Step
  | .node .add terms =>
    match sharedFactor? false terms with
    | some f =>
      if f.rest.all Expr.isNumber then .same (.node .add terms)
      else .new (f.common.times (.sum f.rest))
    | none => .same (.node .add terms)
  | e => .same e

/-- Pulls shared factors out of every sum. -/
def factorShared (e : Expr) : Step := everywhere factorSharedNode e

end SymbolicAlgebra
