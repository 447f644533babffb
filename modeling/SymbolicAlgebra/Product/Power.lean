import SymbolicAlgebra.Expr.ComplexConstant

/-! Powers: numerals and complex numerals are evaluated, integer exponents distributed over products
and quotients, nested exponents multiplied, negative ones moved below a quotient bar. -/
namespace SymbolicAlgebra

/-- A power of a numeral. Exact powers stay exact or stay as they are; a negative exponent leaves
the reciprocal of the positive power. -/
def simplifyNumeralPower (base value : Numeral) (exponent : Expr) : Step :=
  let unchanged : Step := .same (.pow (.number base) exponent)
  if !base.isExact || !value.isExact then .new (.number (base.pow value))
  else if value.isInteger && value.isNegative then
    match base.power? value.neg with
    | some x => .new (.div .one (.number x))
    | none => unchanged
  else
    match base.power? value with
    | some x => .new (.number x)
    | none => unchanged

/-- A power with an integer exponent: one over the power for a negative one, otherwise by the shape
of the base. -/
def simplifyIntegerPower (base : Expr) (n : Int) (exponent : Expr) : Step :=
  if n < 0 then
    .new (.div .one (if n = -1 then base else .pow base (.ofInt (-n))))
  else
    match base with
    | .node .power [inner, a] =>
      match a.rational? with
      | some r => .new (.pow inner (.ofRat (r * n)))
      | none => .new (.pow inner (.product [exponent, a]))
    | .node .power xs => .new (.pow (.node .power xs) (.ofInt n))
    | .node .multiply factors =>
      if 0 < n then .new (.product (factors.map fun f => .pow f exponent))
      else .same (.pow (.node .multiply factors) exponent)
    | .node .divide [a, b] =>
      if 0 < n then .new (.div (.pow a exponent) (.pow b exponent))
      else .same (.pow (.div a b) exponent)
    | base => .same (.pow base exponent)

/-- A power of a base that is not evaluated: `e ^ ln(x)` is `x`. -/
def simplifySymbolicPower (base exponent : Expr) : Step :=
  match exponent.number?.bind Numeral.integer? with
  | some n => simplifyIntegerPower base n exponent
  | none =>
    match base.isIdent "e", exponent.argument? .ln with
    | true, some arg => .new arg
    | _, _ => .same (.pow base exponent)

def simplifyPower (base exponent : Expr) : Step :=
  match base with
  | .complex z =>
    match exponent.number?.bind Numeral.int64? with
    | some n =>
      match z.pow? n with
      | some w => .new (.ofComplex w)
      | none => .same (.pow base exponent)
    | none => simplifySymbolicPower base exponent
  | .number x =>
    match exponent.numeral? with
    | some y => simplifyNumeralPower x y exponent
    | none => simplifySymbolicPower base exponent
  | base => simplifySymbolicPower base exponent

end SymbolicAlgebra
