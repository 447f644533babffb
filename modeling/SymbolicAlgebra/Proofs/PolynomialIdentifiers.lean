import SymbolicAlgebra.Polynomial.OfExpr
import SymbolicAlgebra.Proofs.Identifiers

/-! Arithmetic on polynomials keeps the coefficients in any class that is closed under the operations
of their ring, so polynomials bring in no identifier but the one they are in. -/
namespace SymbolicAlgebra

/-- A class of coefficients that no operation leaves. -/
structure CoefficientRing.Closed {C : Type} (R : CoefficientRing C) (P : C → Prop) : Prop where
  zero : P R.zero
  one : P R.one
  add {a b : C} : P a → P b → P (R.add a b)
  mul {a b : C} : P a → P b → P (R.mul a b)
  div {a b : C} : P a → P b → P (R.div a b)
  neg {a : C} : P a → P (R.neg a)

namespace Polynomial

variable {C : Type} {R : CoefficientRing C} {P : C → Prop} {p q : Polynomial C}

def TermsIn (P : C → Prop) (ts : List (Nat × C)) : Prop := ∀ t ∈ ts, P t.2

theorem termsIn_nil : TermsIn P [] := by simp [TermsIn]

theorem termsIn_cons {t : Nat × C} {ts : List (Nat × C)} :
    TermsIn P (t :: ts) ↔ P t.2 ∧ TermsIn P ts := List.forall_mem_cons

theorem TermsIn.filter {ts : List (Nat × C)} (h : TermsIn P ts) (keep : Nat × C → Bool) :
    TermsIn P (ts.filter keep) := fun t member => h t (List.mem_of_mem_filter member)

theorem termsIn_monomial {c : C} (hc : P c) (exponent : Nat) :
    TermsIn P (monomial R c exponent).terms := by
  unfold monomial
  dsimp only
  split
  · exact termsIn_nil
  · exact termsIn_cons.mpr ⟨hc, termsIn_nil⟩

theorem termsIn_addTerm (closed : R.Closed P) (exponent : Nat) {c : C} (hc : P c)
    {ts : List (Nat × C)} (h : TermsIn P ts) : TermsIn P (addTerm R exponent c ts) := by
  induction ts with
  | nil =>
    unfold addTerm
    split
    · exact termsIn_nil
    · exact termsIn_cons.mpr ⟨hc, termsIn_nil⟩
  | cons t ts ih =>
    obtain ⟨k, d⟩ := t
    obtain ⟨first, others⟩ := termsIn_cons.mp h
    unfold addTerm
    split
    · split
      · exact h
      · exact termsIn_cons.mpr ⟨hc, h⟩
    · split
      · dsimp only
        split
        · exact others
        · exact termsIn_cons.mpr ⟨closed.add first hc, others⟩
      · exact termsIn_cons.mpr ⟨first, ih others⟩

theorem termsIn_add (closed : R.Closed P) (hp : TermsIn P p.terms) (hq : TermsIn P q.terms) :
    TermsIn P (p.add R q).terms :=
  List.foldlRecOn q.terms _ hp fun _ ha t member => termsIn_addTerm closed t.1 (hq t member) ha

theorem termsIn_neg (closed : R.Closed P) (hp : TermsIn P p.terms) :
    TermsIn P (p.neg R).terms := by
  refine TermsIn.filter (fun t member => ?_) _
  obtain ⟨u, inside, rfl⟩ := List.mem_map.mp member
  exact closed.neg (hp u inside)

theorem termsIn_sub (closed : R.Closed P) (hp : TermsIn P p.terms) (hq : TermsIn P q.terms) :
    TermsIn P (p.sub R q).terms := termsIn_add closed hp (termsIn_neg closed hq)

theorem termsIn_scale (closed : R.Closed P) (hp : TermsIn P p.terms) {c : C} (hc : P c) :
    TermsIn P (p.scale R c).terms := by
  refine TermsIn.filter (fun t member => ?_) _
  obtain ⟨u, inside, rfl⟩ := List.mem_map.mp member
  exact closed.mul (hp u inside) hc

theorem termsIn_addProduct (closed : R.Closed P) (exponent : Nat) {c : C} (hc : P c)
    {ts acc : List (Nat × C)} (h : TermsIn P ts) (ha : TermsIn P acc) :
    TermsIn P (addProduct R exponent c ts acc) := by
  refine List.foldlRecOn ts _ ha fun acc ha t member => ?_
  dsimp only
  split
  · exact ha
  · exact termsIn_addTerm closed _ (closed.mul hc (h t member)) ha

theorem termsIn_mul (closed : R.Closed P) (hp : TermsIn P p.terms) (hq : TermsIn P q.terms) :
    TermsIn P (p.mul R q).terms :=
  List.foldlRecOn p.terms _ termsIn_nil fun _ ha t member =>
    termsIn_addProduct closed t.1 (hp t member) hq ha

theorem termsIn_pow (closed : R.Closed P) (hp : TermsIn P p.terms) (n : Nat) :
    TermsIn P (p.pow R n).terms := by
  have onto {acc base : Polynomial C} (ha : TermsIn P acc.terms) (hb : TermsIn P base.terms) :
      TermsIn P (powerOnto (mul R) acc base n).terms := by
    fun_induction powerOnto (mul R) acc base n with
    | case1 => exact ha
    | case2 acc base n _ ih =>
      apply ih _ (termsIn_mul closed hb hb)
      split
      · exact termsIn_mul closed ha hb
      · exact ha
  exact onto (termsIn_monomial closed.one 0) hp

theorem coeff_in (closed : R.Closed P) (hp : TermsIn P p.terms) (exponent : Nat) :
    P (p.coeff R exponent) := by
  unfold coeff
  cases found : p.terms.lookup exponent with
  | none => exact closed.zero
  | some c =>
    obtain ⟨before, after, same, -⟩ := List.lookup_eq_some_iff.mp found
    exact hp (exponent, c) (by simp [same])

theorem leading_in (closed : R.Closed P) (hp : TermsIn P p.terms) : P (p.leading R) := by
  unfold leading
  cases last : p.terms.getLast? with
  | none => exact closed.zero
  | some t => exact hp t (List.mem_of_getLast? last)

theorem termsIn_divideOnto (closed : R.Closed P) {divisor quotient remainder : Polynomial C}
    {degree : Nat} {lead : C} (hd : TermsIn P divisor.terms) (hl : P lead)
    (hq : TermsIn P quotient.terms) (hr : TermsIn P remainder.terms) :
    TermsIn P (divideOnto R divisor degree lead quotient remainder).1.terms ∧
      TermsIn P (divideOnto R divisor degree lead quotient remainder).2.terms := by
  fun_induction divideOnto R divisor degree lead quotient remainder with
  | case1 => exact ⟨hq, hr⟩
  | case2 => exact ⟨hq, hr⟩
  | case3 quotient remainder k found large term ih =>
    have taken : TermsIn P term.terms :=
      termsIn_monomial (closed.div (leading_in closed hr) hl) _
    exact ih (termsIn_add closed hq taken)
      ((termsIn_sub closed hr (termsIn_mul closed taken hd)).filter _)

theorem termsIn_divRem? (closed : R.Closed P) {divisor quotient remainder : Polynomial C}
    (hp : TermsIn P p.terms) (hd : TermsIn P divisor.terms)
    (h : p.divRem? R divisor = some (quotient, remainder)) :
    TermsIn P quotient.terms ∧ TermsIn P remainder.terms := by
  obtain ⟨degree, -, same⟩ := Option.map_eq_some_iff.mp h
  obtain ⟨rfl, rfl⟩ := Prod.ext_iff.mp same
  exact termsIn_divideOnto closed hd (leading_in closed hd) termsIn_nil hp

/-! ## Expressions as polynomials -/

variable {E : ExprCoefficients C} {S : Set String} {unknown : String}

theorem termsIn_sumOfExprs? (closed : E.toCoefficientRing.Closed P) {xs : List Expr}
    (each : ∀ y ∈ xs, ∀ q, ofExpr? E unknown y = some q → TermsIn P q.terms) {acc : Polynomial C}
    (ha : TermsIn P acc.terms) (read : sumOfExprs? E unknown acc xs = some p) :
    TermsIn P p.terms := by
  induction xs generalizing acc with
  | nil =>
    cases read
    exact ha
  | cons y ys ih =>
    obtain ⟨here, there⟩ := List.forall_mem_cons.mp each
    rw [sumOfExprs?, Option.bind_eq_bind, Option.bind_eq_some_iff] at read
    obtain ⟨q, first, rest⟩ := read
    exact ih there (termsIn_add closed ha (here q first)) rest

theorem termsIn_productOfExprs? (closed : E.toCoefficientRing.Closed P) {xs : List Expr}
    (each : ∀ y ∈ xs, ∀ q, ofExpr? E unknown y = some q → TermsIn P q.terms) {acc : Polynomial C}
    (ha : TermsIn P acc.terms) (read : productOfExprs? E unknown acc xs = some p) :
    TermsIn P p.terms := by
  induction xs generalizing acc with
  | nil =>
    cases read
    exact ha
  | cons y ys ih =>
    obtain ⟨here, there⟩ := List.forall_mem_cons.mp each
    rw [productOfExprs?, Option.bind_eq_bind, Option.bind_eq_some_iff] at read
    obtain ⟨q, first, rest⟩ := read
    exact ih there (termsIn_mul closed ha (here q first)) rest

/-- The coefficients that an expression is read with are in the class, if those of its parts without
the variable are. -/
theorem termsIn_ofExpr? (closed : E.toCoefficientRing.Closed P)
    (constant : ∀ e c, e.NamesIn S → e.mentions unknown = false → E.constant? e = some c → P c)
    {e : Expr} (h : e.NamesIn S) (read : ofExpr? E unknown e = some p) : TermsIn P p.terms := by
  have whole {e : Expr} (h : e.NamesIn S) (free : e.mentions unknown = false) {p : Polynomial C}
      (read : (E.constant? e).map (fun c => monomial E.toCoefficientRing c 0) = some p) :
      TermsIn P p.terms := by
    obtain ⟨c, found, rfl⟩ := Option.map_eq_some_iff.mp read
    exact termsIn_monomial (constant e c h free found) 0
  induction e generalizing p with
  | number n => exact whole h rfl read
  | complex z => exact whole h rfl read
  | ident name =>
    rw [ofExpr?] at read
    split at read
    · cases read
      exact termsIn_monomial closed.one 1
    · rename_i other
      exact whole h (by simpa using other) read
  | call f xs ih =>
    unfold ofExpr? at read
    split at read
    · cases read
    · rename_i free
      exact whole h (Bool.eq_false_iff.mpr free) read
  | node op xs ih =>
    have parts := Expr.namesIn_node.mp h
    unfold ofExpr? at read
    split at read
    case isTrue free => exact whole h (by simpa using free) read
    split at read
    case h_1 =>
      exact termsIn_sumOfExprs? closed (fun y member q => ih y member (parts y member)) termsIn_nil
        read
    case h_2 =>
      exact termsIn_productOfExprs? closed (fun y member q => ih y member (parts y member))
        (termsIn_monomial closed.one 0) read
    case h_3 a b _ =>
      simp only [Option.bind_eq_bind, Option.bind_eq_some_iff, Option.some.injEq] at read
      obtain ⟨q, hq, r, hr, rfl⟩ := read
      exact termsIn_sub closed (ih a (by simp) (parts a (by simp)) hq)
        (ih b (by simp) (parts b (by simp)) hr)
    case h_4 a b _ =>
      split at read
      · cases read
      · rename_i free
        simp only [Option.bind_eq_bind, Option.bind_eq_some_iff] at read
        obtain ⟨d, hd, read⟩ := read
        split at read
        · cases read
        · simp only [Option.bind_eq_some_iff, Option.some.injEq] at read
          obtain ⟨q, hq, rfl⟩ := read
          have divisor := constant b d (parts b (by simp)) (Bool.eq_false_iff.mpr free) hd
          exact termsIn_scale closed (ih a (by simp) (parts a (by simp)) hq)
            (closed.div closed.one divisor)
    case h_5 base n _ =>
      simp only [Option.bind_eq_bind, Option.bind_eq_some_iff, Option.some.injEq] at read
      obtain ⟨k, -, q, hq, rfl⟩ := read
      exact termsIn_pow closed (ih base (by simp) (parts base (by simp)) hq) k
    case h_6 => cases read

theorem namesIn_variablePower (hu : unknown ∈ S) (n : Nat) :
    (variablePower unknown n).NamesIn S := by
  unfold variablePower
  split <;> simp [hu]

theorem namesIn_toExpr (coefficient : ∀ c, P c → (E.toExpr c).NamesIn S) (hu : unknown ∈ S)
    (hp : TermsIn P p.terms) : (p.toExpr E unknown).NamesIn S := by
  refine Expr.namesIn_sum.mpr fun y member => ?_
  obtain ⟨t, inside, rfl⟩ := List.mem_map.mp member
  exact (coefficient t.2 (hp t (List.mem_reverse.mp inside))).times (namesIn_variablePower hu t.1)

end Polynomial

/-! ## Expressions as coefficients -/

/-- A function on expressions that brings in no identifier. -/
def AddsNoNames (f : Expr → Expr) : Prop :=
  ∀ (S : Set String) (e : Expr), e.NamesIn S → (f e).NamesIn S

section Symbolic

variable {simplify : Expr → Expr} {S : Set String} {p : Polynomial Expr} {unknown : String}

theorem symbolicCoefficients_closed (simple : AddsNoNames simplify) (S : Set String) :
    (symbolicCoefficients simplify).toCoefficientRing.Closed (Expr.NamesIn S) where
  zero := Expr.namesIn_zero
  one := Expr.namesIn_one
  add := fun ha hb => simple S _ (Expr.namesIn_add.mpr ⟨ha, hb⟩)
  mul := fun ha hb => simple S _ (Expr.namesIn_mul.mpr ⟨ha, hb⟩)
  div := fun ha hb => simple S _ (Expr.namesIn_div.mpr ⟨ha, hb⟩)
  neg := fun ha => simple S _ ha.negate

theorem termsIn_symbolic (simple : AddsNoNames simplify) {e : Expr} (h : e.NamesIn S)
    (read : Polynomial.ofExpr? (symbolicCoefficients simplify) unknown e = some p) :
    Polynomial.TermsIn (Expr.NamesIn S) p.terms := by
  refine Polynomial.termsIn_ofExpr? (symbolicCoefficients_closed simple S) (fun e c h _ same => ?_)
    h read
  obtain rfl : e = c := Option.some.inj same
  exact h

theorem namesIn_symbolicCoeff (simple : AddsNoNames simplify) {e : Expr} (h : e.NamesIn S)
    (read : Polynomial.ofExpr? (symbolicCoefficients simplify) unknown e = some p) (n : Nat) :
    (p.coeff (symbolicCoefficients simplify).toCoefficientRing n).NamesIn S :=
  Polynomial.coeff_in (symbolicCoefficients_closed simple S) (termsIn_symbolic simple h read) n

theorem namesIn_symbolicToExpr (hu : unknown ∈ S)
    (hp : Polynomial.TermsIn (Expr.NamesIn S) p.terms) :
    (p.toExpr (symbolicCoefficients simplify) unknown).NamesIn S :=
  Polynomial.namesIn_toExpr (fun _ h => h) hu hp

theorem namesIn_polynomialQuotient? (simple : AddsNoNames simplify) {n d quotient remainder : Expr}
    (hu : unknown ∈ S) (hn : n.NamesIn S) (hd : d.NamesIn S)
    (found : polynomialQuotient? simplify n d [unknown] = some (quotient, remainder)) :
    quotient.NamesIn S ∧ remainder.NamesIn S := by
  simp only [polynomialQuotient?, divisionVariable?, Option.bind_eq_bind, Option.bind_some,
    Option.bind_eq_some_iff, Option.some.injEq, Prod.mk.injEq] at found
  obtain ⟨p, hp, q, hq, ⟨whole, rest⟩, divided, rfl, rfl⟩ := found
  obtain ⟨above, below⟩ := Polynomial.termsIn_divRem? (symbolicCoefficients_closed simple S)
    (termsIn_symbolic simple hn hp) (termsIn_symbolic simple hd hq) divided
  exact ⟨simple S _ (namesIn_symbolicToExpr hu above), simple S _ (namesIn_symbolicToExpr hu below)⟩

end Symbolic

end SymbolicAlgebra
