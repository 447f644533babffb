import SymbolicAlgebra.Expr.ComplexConstant
import SymbolicAlgebra.Expr.Sign
import SymbolicAlgebra.Product.Coefficient
import SymbolicAlgebra.Quotient.CommonDenominator
import SymbolicAlgebra.Rule.Everywhere

/-! Common factors of numerators and denominators: nested quotients are flattened, a quotient inside
a product is drawn over it, numeral quotients go to lowest terms, and equal bases net their
exponents on one side. -/
namespace SymbolicAlgebra

/-- A base and its exponent. -/
abbrev Power := Expr × Expr

/-- A product as its numeral coefficient and the powers of its other factors. -/
structure FactoredTerm where
  coefficient : Numeral
  powers : List Power

namespace FactoredTerm

def ofExpr (e : Expr) : FactoredTerm :=
  ⟨Expr.numeralProduct e.factors, (e.factors.filter fun x => !x.isNumber).map Expr.asPower⟩

/-- A power, without an exponent of one. -/
def powerExpr (p : Power) : Expr := if p.2.isOne then p.1 else .pow p.1 p.2

def toExpr (t : FactoredTerm) : Expr :=
  .product ((if t.coefficient.isOne then [] else [.number t.coefficient]) ++ t.powers.map powerExpr)

end FactoredTerm

/-- The first power with the given base: those before it, its exponent and those after it. -/
def splitAtBase (base : Expr) : List Power → Option (List Power × Expr × List Power)
  | [] => none
  | p :: ps =>
    if p.1 = base then some ([], p.2, ps)
    else (splitAtBase base ps).map fun (before, exponent, after) => (p :: before, exponent, after)

/-- Powers above and below the bar, and whether a base stood on both sides. -/
structure NetPowers where
  top : List Power
  bottom : List Power
  shared : Bool

/-- Nets one power against the exponent of the same base below the bar; a rational difference goes
to the side where it is positive. -/
def netPower (base upper lower : Expr) (before after : List Power) : List Power × List Power :=
  match upper.rational?, lower.rational? with
  | some r, some s =>
    let net := r - s
    if net.num < 0 then ([], before ++ (base, .ofRat (-net)) :: after)
    else if net = 0 then ([], before ++ after)
    else ([(base, .ofRat net)], before ++ after)
  | _, _ => ([(base, .sum [upper, lower.negate])], before ++ after)

/-- Nets every power above the bar against those below it. -/
def netPowers : List Power → List Power → NetPowers
  | [], bottom => ⟨[], bottom, false⟩
  | (base, upper) :: rest, bottom =>
    match splitAtBase base bottom with
    | none =>
      let net := netPowers rest bottom
      ⟨(base, upper) :: net.top, net.bottom, net.shared⟩
    | some (before, lower, after) =>
      let (kept, below) := netPower base upper lower before after
      let net := netPowers rest below
      ⟨kept ++ net.top, net.bottom, true⟩

/-- Two coefficients as those of one quotient: exact ones in lowest terms, others divided out. -/
def netCoefficients (top bottom : Numeral) : Numeral × Numeral :=
  match top, bottom with
  | .exact a, .exact b => (.ofInt (a / b).num, .ofInt (a / b).den)
  | _, _ => (top.div bottom, .one)

/-- What a cancellation did. -/
structure Cancellation where
  expr : Expr
  /-- Inner quotients were flattened, or a zero divisor replaced. -/
  structural : Bool := false
  /-- The numeral coefficients were reduced. -/
  numeral : Bool := false
  /-- A base stood on both sides. -/
  shared : Bool := false

namespace Cancellation

def changed (c : Cancellation) : Bool := c.structural || c.numeral || c.shared

/-- Reduces a quotient of two numerals. -/
def ofNumerals (x y : Numeral) : Cancellation :=
  let reduced :=
    match x.div y with
    | .exact r => Expr.div (.ofInt r.num) (.ofInt r.den)
    | value => .number value
  { expr := reduced, numeral := reduced != .div (.number x) (.number y) }

/-- Nets the coefficients and powers of two products. -/
def ofTerms (q : Quotient) (top bottom : FactoredTerm) : Cancellation :=
  if top.coefficient.isNaN || bottom.coefficient.isNaN || bottom.coefficient.isZero then
    { expr := q.toExpr }
  else
    let (above, below) := netCoefficients top.coefficient bottom.coefficient
    let numeral := above != top.coefficient || below != bottom.coefficient
    let net := netPowers top.powers bottom.powers
    if !numeral && !net.shared then { expr := q.toExpr }
    else
      let upper := FactoredTerm.toExpr ⟨above, net.top⟩
      let expr :=
        if net.bottom.isEmpty && below.isOne then upper
        else .div upper (FactoredTerm.toExpr ⟨below, net.bottom⟩)
      { expr, numeral, shared := net.shared }

/-- Cancels a quotient of which neither side is a quotient. -/
def ofFlat (q : Quotient) : Cancellation :=
  if q.den.isZero then { expr := .div .nan .one, structural := true }
  else if q.num.isNaN then { expr := q.toExpr }
  else
    match Expr.constantQuotient? q.num q.den with
    | some e => { expr := e, numeral := true }
    | none =>
      match q.num, q.den with
      | .number x, .number y => ofNumerals x y
      | n, d => ofTerms q (.ofExpr n) (.ofExpr d)

def ofSides (n d : Expr) : Cancellation :=
  let flattened := (n.sides? .divide).isSome || (d.sides? .divide).isSome
  let c := ofFlat (Quotient.flatten n d)
  { c with structural := flattened || c.structural }

end Cancellation

/-- Cancels one quotient. -/
def reduceQuotient (n d : Expr) : Step :=
  let c := Cancellation.ofSides n d
  ⟨c.expr, c.changed⟩

/-- Cancels one quotient, counted as a change only if a base stood on both sides. -/
def reduceSharedBases (n d : Expr) : Step :=
  let c := Cancellation.ofSides n d
  ⟨c.expr, c.shared⟩

/-- The operands before the first quotient, its sides and the operands after it. -/
def splitAtQuotient : List Expr → Option (List Expr × Quotient × List Expr)
  | [] => none
  | .node .divide [n, d] :: xs => some ([], ⟨n, d⟩, xs)
  | x :: xs => (splitAtQuotient xs).map fun (before, q, after) => (x :: before, q, after)

/-- Draws the bar of the first quotient in a product over the whole product. -/
def raiseBar (xs : List Expr) : Step :=
  match splitAtQuotient xs with
  | none => .same (.node .multiply xs)
  | some (before, q, after) =>
    let top := (before ++ q.num.factors ++ after).filter fun x => !x.isOne
    .new (.div (.product top) q.den)

def reduceQuotientsNode : Expr → Step
  | .node .divide [n, d] => reduceQuotient n d
  | .node .multiply xs => raiseBar xs
  | e => .same e

/-- Cancels common factors between numerators and denominators. -/
def reduceQuotients (e : Expr) : Step := everywhere reduceQuotientsNode e

end SymbolicAlgebra
