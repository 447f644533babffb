import SymbolicAlgebra.Numeral.Power
import SymbolicAlgebra.Polynomial.Coefficient

/-! Sparse polynomials in one variable: the terms with a coefficient other than zero, by ascending
exponent. Exponents are words of 64 bits, and a sum of two that leaves the word wraps around. -/
namespace SymbolicAlgebra

/-- The number of words. -/
def wordSize : Nat := 18446744073709551616

structure Polynomial (C : Type) where
  terms : List (Nat × C)
deriving DecidableEq

namespace Polynomial

/-- Adds a term to terms in ascending order; a coefficient of zero goes out. -/
def addTerm (R : CoefficientRing C) (exponent : Nat) (c : C) : List (Nat × C) → List (Nat × C)
  | [] => if R.isZero c then [] else [(exponent, c)]
  | (k, d) :: ts =>
    if exponent < k then if R.isZero c then (k, d) :: ts else (exponent, c) :: (k, d) :: ts
    else if exponent = k then
      let total := R.add d c
      if R.isZero total then ts else (k, total) :: ts
    else (k, d) :: addTerm R exponent c ts

def zero : Polynomial C := ⟨[]⟩

def monomial (R : CoefficientRing C) (c : C) (exponent : Nat) : Polynomial C :=
  ⟨if R.isZero c then [] else [(exponent, c)]⟩

def one (R : CoefficientRing C) : Polynomial C := monomial R R.one 0

/-- The polynomial with these coefficients, from the highest exponent down to the constant. -/
def ofDescending (R : CoefficientRing C) : List C → Polynomial C
  | [] => zero
  | c :: cs => ⟨(ofDescending R cs).terms ++ (monomial R c cs.length).terms⟩

/-- The highest exponent; none for zero. -/
def degree? (p : Polynomial C) : Option Nat := p.terms.getLast?.map Prod.fst

def isZero (p : Polynomial C) : Bool := p.terms.isEmpty

/-- The coefficient at an exponent. -/
def coeff (R : CoefficientRing C) (p : Polynomial C) (exponent : Nat) : C :=
  (p.terms.lookup exponent).getD R.zero

def leading (R : CoefficientRing C) (p : Polynomial C) : C :=
  (p.terms.getLast?.map Prod.snd).getD R.zero

/-- The coefficients at `n - 1`, ..., `0`. -/
def coefficientsBelow (R : CoefficientRing C) (p : Polynomial C) : Nat → List C
  | 0 => []
  | n + 1 => p.coeff R n :: coefficientsBelow R p n

/-- The coefficients from the leading one down to the constant, zeros included. -/
def descending (R : CoefficientRing C) (p : Polynomial C) : List C :=
  match p.degree? with
  | some d => p.coefficientsBelow R (d + 1)
  | none => [R.zero]

def add (R : CoefficientRing C) (p q : Polynomial C) : Polynomial C :=
  ⟨q.terms.foldl (fun acc t => addTerm R t.1 t.2 acc) p.terms⟩

def neg (R : CoefficientRing C) (p : Polynomial C) : Polynomial C :=
  ⟨(p.terms.map fun t => (t.1, R.neg t.2)).filter fun t => !R.isZero t.2⟩

def sub (R : CoefficientRing C) (p q : Polynomial C) : Polynomial C := p.add R (q.neg R)

/-- Adds `c * X ^ exponent` times the terms of a polynomial; products of zero are passed over, and
sums of exponents wrap around. -/
def addProduct (R : CoefficientRing C) (exponent : Nat) (c : C) (ts acc : List (Nat × C)) :
    List (Nat × C) :=
  ts.foldl
    (fun acc t =>
      let product := R.mul c t.2
      if R.isZero product then acc else addTerm R ((exponent + t.1) % wordSize) product acc)
    acc

def mul (R : CoefficientRing C) (p q : Polynomial C) : Polynomial C :=
  ⟨p.terms.foldl (fun acc t => addProduct R t.1 t.2 q.terms acc) []⟩

def pow (R : CoefficientRing C) (p : Polynomial C) (n : Nat) : Polynomial C :=
  powerOnto (mul R) (one R) p n

/-- Every coefficient times `c`. -/
def scale (R : CoefficientRing C) (p : Polynomial C) (c : C) : Polynomial C :=
  ⟨(p.terms.map fun t => (t.1, R.mul t.2 c)).filter fun t => !R.isZero t.2⟩

/-- The value at `x`, by nested multiplication from the leading coefficient down. -/
def evaluate (R : CoefficientRing C) (p : Polynomial C) (x : C) : C :=
  (p.descending R).foldl (fun acc c => R.add (R.mul acc x) c) R.zero

/-- The terms below an exponent. -/
def below (p : Polynomial C) (exponent : Nat) : Polynomial C :=
  ⟨p.terms.filter fun t => t.1 < exponent⟩

end Polynomial

end SymbolicAlgebra
