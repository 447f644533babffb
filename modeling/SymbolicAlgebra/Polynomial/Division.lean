import SymbolicAlgebra.Polynomial.Basic

/-! Long division of polynomials. -/
namespace SymbolicAlgebra

namespace Polynomial

theorem degree?_below_lt {p : Polynomial C} {bound k : Nat} (h : (p.below bound).degree? = some k) :
    k < bound := by
  obtain ⟨t, ht, rfl⟩ := Option.map_eq_some_iff.1 h
  have hm := List.mem_of_getLast? ht
  simpa using (List.mem_filter.1 hm).2

/-- Takes multiples of the divisor, of degree `degree` with leading coefficient `lead`, off the
remainder. The leading term always goes, also where the coefficients cannot show that it cancels. -/
def divideOnto (R : CoefficientRing C) (divisor : Polynomial C) (degree : Nat) (lead : C)
    (quotient remainder : Polynomial C) : Polynomial C × Polynomial C :=
  match _h : remainder.degree? with
  | none => (quotient, remainder)
  | some k =>
    if k < degree then (quotient, remainder)
    else
      let term := monomial R (R.div (remainder.leading R) lead) (k - degree)
      divideOnto R divisor degree lead (quotient.add R term)
        ((remainder.sub R (term.mul R divisor)).below k)
termination_by (remainder.degree?.map (· + 1)).getD 0
decreasing_by
  rw [_h]
  simp only [Option.map_some, Option.getD_some]
  cases hd : ((remainder.sub R
      ((monomial R (R.div (remainder.leading R) lead) (k - degree)).mul R divisor)).below
        k).degree? with
  | none => simp
  | some j =>
    have := degree?_below_lt hd
    simp only [Option.map_some, Option.getD_some]
    omega

/-- Quotient and remainder; none for a divisor of zero. -/
def divRem? (R : CoefficientRing C) (p divisor : Polynomial C) :
    Option (Polynomial C × Polynomial C) :=
  divisor.degree?.map fun degree => divideOnto R divisor degree (divisor.leading R) zero p

end Polynomial

end SymbolicAlgebra
