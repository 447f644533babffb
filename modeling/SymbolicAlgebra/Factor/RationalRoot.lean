import SymbolicAlgebra.Factor.Quadratic

/-! Linear factors of integer polynomials by their rational roots. -/
namespace SymbolicAlgebra

/-- Adds the divisors of `n` from `d` up to its square root, each with its cofactor, looking `fuel`
times. -/
def divisorsFrom (n : Nat) : Nat → Nat → List Nat → List Nat
  | 0, _, found => found
  | fuel + 1, d, found =>
    if n < d * d then found
    else if n % d = 0 then
      divisorsFrom n fuel (d + 1) (if n / d = d then d :: found else d :: n / d :: found)
    else divisorsFrom n fuel (d + 1) found

/-- The positive divisors of an integer other than zero. -/
def positiveDivisors (n : Int) : List Nat := divisorsFrom n.natAbs (n.natAbs + 1) 1 []

/-- The roots that a leading and a constant coefficient allow, in ascending order. -/
def rootCandidates (leading constant : Int) : List Rat :=
  let positive := (positiveDivisors constant).flatMap fun (p : Nat) =>
    (positiveDivisors leading).map fun (q : Nat) => mkRat p q
  (positive.flatMap fun r => [-r, r]).mergeSort fun r s => r ≤ s

/-- The least rational root; zero at once if the constant term is zero. -/
def rationalRoot? (p : Polynomial Numeral) : Option Rat :=
  let R := numeralCoefficients.toCoefficientRing
  match (p.leading R).integer?, (p.coeff R 0).integer? with
  | some leading, some constant =>
    if constant = 0 then some 0
    else (rootCandidates leading constant).find? fun r => (p.evaluate R (.exact r)).isZero
  | _, _ => none

/-- Splits one linear factor off an integer polynomial of degree two or more. -/
def factorRationalRoot (e : Expr) : Step :=
  let R := numeralCoefficients
  match unknownAndCoefficients? true e with
  | some (unknown, cs) =>
    if cs.length < 3 then .same e
    else
      let p := Polynomial.ofDescending R.toCoefficientRing cs
      match rationalRoot? p with
      | some root =>
        let d := Polynomial.ofDescending R.toCoefficientRing [.ofInt root.den, .ofInt (-root.num)]
        match p.divRem? R.toCoefficientRing d with
        | some (quotient, remainder) =>
          if remainder.isZero then
            .new (.product [factorOfRoot unknown root, (quotient.toExpr R unknown).differenceForm])
          else .same e
        | none => .same e
      | none => .same e
  | none => .same e

end SymbolicAlgebra
