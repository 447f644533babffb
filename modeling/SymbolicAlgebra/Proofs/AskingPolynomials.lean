import SymbolicAlgebra.Proofs.Asking
import SymbolicAlgebra.Proofs.PolynomialIdentifiers

/-! Arithmetic on polynomials whose coefficients are expressions, with every coefficient asked for
in normal form. It asks for trees over the identifiers of the coefficients only, and reading an
expression as a polynomial in its sole identifier asks for trees without any. -/
namespace SymbolicAlgebra

namespace Asking

/-- What there is of the ring of coefficients without an answer. -/
abbrev coefficients : CoefficientRing Expr := (symbolicCoefficients id).toCoefficientRing

def addTerm (exponent : Nat) (c : Expr) : List (Nat × Expr) → Asking (List (Nat × Expr))
  | [] => return if c.isZero then [] else [(exponent, c)]
  | (k, d) :: ts =>
    if exponent < k then return if c.isZero then (k, d) :: ts else (exponent, c) :: (k, d) :: ts
    else if exponent = k then do
      let total ← request (.add d c)
      return if total.isZero then ts else (k, total) :: ts
    else ((k, d) :: ·) <$> addTerm exponent c ts

def add (p q : Polynomial Expr) : Asking (Polynomial Expr) :=
  .mk <$> q.terms.foldlM (fun acc t => addTerm t.1 t.2 acc) p.terms

/-- The coefficients in another form, without those of zero. -/
def mapTerms (form : Expr → Expr) (p : Polynomial Expr) : Asking (Polynomial Expr) := do
  let terms ← p.terms.mapM fun t => (t.1, ·) <$> request (form t.2)
  return ⟨terms.filter fun t => !t.2.isZero⟩

def sub (p q : Polynomial Expr) : Asking (Polynomial Expr) := do
  let opposite ← mapTerms Expr.negate q
  add p opposite

def addProduct (exponent : Nat) (c : Expr) (ts acc : List (Nat × Expr)) :
    Asking (List (Nat × Expr)) :=
  ts.foldlM
    (fun acc t => do
      let product ← request (.mul c t.2)
      if product.isZero then return acc else addTerm ((exponent + t.1) % wordSize) product acc)
    acc

def mul (p q : Polynomial Expr) : Asking (Polynomial Expr) :=
  .mk <$> p.terms.foldlM (fun acc t => addProduct t.1 t.2 q.terms acc) []

/-- The value of `acc * base ^ n`, by repeated squaring; the last square is taken in vain. -/
def powerOnto (acc base : Polynomial Expr) (n : Nat) : Asking (Polynomial Expr) :=
  if n = 0 then return acc
  else do
    let acc ← (if n % 2 = 1 then mul acc base else done acc)
    let square ← mul base base
    powerOnto acc square (n / 2)
termination_by n

def pow (p : Polynomial Expr) (n : Nat) : Asking (Polynomial Expr) :=
  powerOnto (.one coefficients) p n

mutual

/-- Reads an expression as a polynomial in a variable. -/
def ofExpr? (unknown : String) : Expr → Asking (Option (Polynomial Expr))
  | .ident name =>
    return some (.monomial coefficients (if name = unknown then .one else .ident name)
      (if name = unknown then 1 else 0))
  | .node op xs =>
    if !(Expr.node op xs).mentions unknown then
      return some (.monomial coefficients (.node op xs) 0)
    else
      match op, xs with
      | .add, terms => sumOfExprs? unknown .zero terms
      | .multiply, factors => productOfExprs? unknown (.one coefficients) factors
      | .subtract, [a, b] =>
        (ofExpr? unknown a).andThen fun p => (ofExpr? unknown b).andThen fun q => some <$> sub p q
      | .divide, [a, b] =>
        if b.mentions unknown then return none
        else if b.isZero then return none
        else
          (ofExpr? unknown a).andThen fun p => do
            let factor ← request (.div .one b)
            some <$> mapTerms (fun c => .mul c factor) p
      | .power, [base, .number x] =>
        match x.uint64? with
        | some n => (ofExpr? unknown base).andThen fun p => some <$> pow p n
        | none => return none
      | _, _ => return none
  | e => if e.mentions unknown then return none else return some (.monomial coefficients e 0)

def sumOfExprs? (unknown : String) (acc : Polynomial Expr) :
    List Expr → Asking (Option (Polynomial Expr))
  | [] => return some acc
  | x :: xs =>
    (ofExpr? unknown x).andThen fun p => do
      let sum ← add acc p
      sumOfExprs? unknown sum xs

def productOfExprs? (unknown : String) (acc : Polynomial Expr) :
    List Expr → Asking (Option (Polynomial Expr))
  | [] => return some acc
  | x :: xs =>
    (ofExpr? unknown x).andThen fun p => do
      let product ← mul acc p
      productOfExprs? unknown product xs

end

/-! ## What is asked for -/

section Arithmetic

open SymbolicAlgebra.Polynomial (TermsIn termsIn_cons termsIn_nil)

variable {answer : Expr → Expr} {allowed : Expr → Prop} {S : Set String} {p q : Polynomial Expr}

theorem addTerm_gives (within : ∀ t : Expr, t.NamesIn S → allowed t) (exponent : Nat) {c : Expr}
    (hc : c.NamesIn S) {ts : List (Nat × Expr)} (h : TermsIn (Expr.NamesIn S) ts) :
    Gives answer allowed (addTerm exponent c ts)
      (Polynomial.addTerm (symbolicCoefficients answer).toCoefficientRing exponent c ts) := by
  induction ts with
  | nil => exact .done _
  | cons t ts ih =>
    obtain ⟨k, d⟩ := t
    obtain ⟨first, others⟩ := termsIn_cons.mp h
    unfold addTerm Polynomial.addTerm
    refine .ite (fun _ => .done _) fun _ => .ite (fun _ => ?_) fun _ => (ih others).map
    exact (Gives.request (within _ (Expr.namesIn_add.mpr ⟨first, hc⟩))).bind (.done _)

theorem mapTerms_gives {form : Expr → Expr} (each : ∀ t ∈ p.terms, allowed (form t.2)) :
    Gives answer allowed (mapTerms form p)
      ⟨(p.terms.map fun t => (t.1, answer (form t.2))).filter fun t => !t.2.isZero⟩ :=
  (Gives.mapM fun t member => (Gives.request (each t member)).map).bind (.done _)

variable (simple : AddsNoNames answer) (within : ∀ t : Expr, t.NamesIn S → allowed t)

include simple within

theorem add_gives (hp : TermsIn (Expr.NamesIn S) p.terms) (hq : TermsIn (Expr.NamesIn S) q.terms) :
    Gives answer allowed (add p q)
      (p.add (symbolicCoefficients answer).toCoefficientRing q) := by
  refine Gives.map (Gives.foldlM hp fun acc ha t member => ⟨?_, ?_⟩)
  · exact addTerm_gives within t.1 (hq t member) ha
  · exact Polynomial.termsIn_addTerm (symbolicCoefficients_closed simple S) t.1 (hq t member) ha

theorem sub_gives (hp : TermsIn (Expr.NamesIn S) p.terms) (hq : TermsIn (Expr.NamesIn S) q.terms) :
    Gives answer allowed (sub p q)
      (p.sub (symbolicCoefficients answer).toCoefficientRing q) :=
  (mapTerms_gives fun t member => within _ (hq t member).negate).bind
    (add_gives simple within hp (Polynomial.termsIn_neg (symbolicCoefficients_closed simple S) hq))

theorem addProduct_gives (exponent : Nat) {c : Expr} (hc : c.NamesIn S) {ts acc : List (Nat × Expr)}
    (h : TermsIn (Expr.NamesIn S) ts) (ha : TermsIn (Expr.NamesIn S) acc) :
    Gives answer allowed (addProduct exponent c ts acc)
      (Polynomial.addProduct (symbolicCoefficients answer).toCoefficientRing exponent c ts
        acc) := by
  have closed := symbolicCoefficients_closed simple S
  refine Gives.foldlM ha fun acc ha t member => ?_
  have factors := Expr.namesIn_mul.mpr ⟨hc, h t member⟩
  constructor
  · refine (Gives.request (within _ factors)).bind (.ite (fun _ => .done _) fun _ => ?_)
    exact addTerm_gives within _ (simple S _ factors) ha
  · dsimp only
    split
    · exact ha
    · exact Polynomial.termsIn_addTerm closed _ (simple S _ factors) ha

theorem mul_gives (hp : TermsIn (Expr.NamesIn S) p.terms) (hq : TermsIn (Expr.NamesIn S) q.terms) :
    Gives answer allowed (mul p q)
      (p.mul (symbolicCoefficients answer).toCoefficientRing q) := by
  have nothing : TermsIn (Expr.NamesIn S) [] := termsIn_nil
  refine Gives.map (Gives.foldlM nothing fun acc ha t member => ⟨?_, ?_⟩)
  · exact addProduct_gives simple within t.1 (hp t member) hq ha
  · exact Polynomial.termsIn_addProduct (symbolicCoefficients_closed simple S) t.1 (hp t member)
      hq ha

theorem powerOnto_gives {acc base : Polynomial Expr} (ha : TermsIn (Expr.NamesIn S) acc.terms)
    (hb : TermsIn (Expr.NamesIn S) base.terms) (n : Nat) :
    Gives answer allowed (powerOnto acc base n)
      (SymbolicAlgebra.powerOnto
        (Polynomial.mul (symbolicCoefficients answer).toCoefficientRing) acc base n) := by
  have closed := symbolicCoefficients_closed simple S
  fun_induction SymbolicAlgebra.powerOnto
    (Polynomial.mul (symbolicCoefficients answer).toCoefficientRing) acc base n with
  | case1 =>
    rw [powerOnto]
    exact .done _
  | case2 acc base n some ih =>
    rw [powerOnto, if_neg some]
    have product := Polynomial.termsIn_mul closed ha hb
    refine (Gives.ite (fun _ => mul_gives simple within ha hb) fun _ => .done acc).bind
      ((mul_gives simple within hb hb).bind (ih ?_ (Polynomial.termsIn_mul closed hb hb)))
    split
    · exact product
    · exact ha

theorem pow_gives (hp : TermsIn (Expr.NamesIn S) p.terms) (n : Nat) :
    Gives answer allowed (pow p n) (p.pow (symbolicCoefficients answer).toCoefficientRing n) :=
  powerOnto_gives simple within (Polynomial.termsIn_monomial Expr.namesIn_one 0) hp n

/-! ## Reading -/

variable {unknown : String} {xs : List Expr} {acc : Polynomial Expr}

omit within in
/-- Without the variable, the parts of an expression are over the other identifiers. -/
theorem termsIn_read {e : Expr} (h : e.NamesIn (insert unknown S))
    (read : Polynomial.ofExpr? (symbolicCoefficients answer) unknown e = some p) :
    TermsIn (Expr.NamesIn S) p.terms := by
  refine Polynomial.termsIn_ofExpr? (symbolicCoefficients_closed simple S) ?_ h read
  intro e c wider free same
  obtain rfl : e = c := Option.some.inj same
  exact wider.of_insert free

theorem sumOfExprs?_gives (parts : ∀ x ∈ xs, x.NamesIn (insert unknown S))
    (each : ∀ x ∈ xs, Gives answer allowed (ofExpr? unknown x)
      (Polynomial.ofExpr? (symbolicCoefficients answer) unknown x))
    (ha : TermsIn (Expr.NamesIn S) acc.terms) :
    Gives answer allowed (sumOfExprs? unknown acc xs)
      (Polynomial.sumOfExprs? (symbolicCoefficients answer) unknown acc xs) := by
  induction xs generalizing acc with
  | nil =>
    rw [sumOfExprs?, Polynomial.sumOfExprs?]
    exact .done _
  | cons x xs ih =>
    obtain ⟨hx, hxs⟩ := List.forall_mem_cons.mp parts
    obtain ⟨first, rest⟩ := List.forall_mem_cons.mp each
    rw [sumOfExprs?, Polynomial.sumOfExprs?, Option.bind_eq_bind]
    refine first.andThen fun p read => ?_
    have hp := termsIn_read simple hx read
    exact (add_gives simple within ha hp).bind
      (ih hxs rest (Polynomial.termsIn_add (symbolicCoefficients_closed simple S) ha hp))

theorem productOfExprs?_gives (parts : ∀ x ∈ xs, x.NamesIn (insert unknown S))
    (each : ∀ x ∈ xs, Gives answer allowed (ofExpr? unknown x)
      (Polynomial.ofExpr? (symbolicCoefficients answer) unknown x))
    (ha : TermsIn (Expr.NamesIn S) acc.terms) :
    Gives answer allowed (productOfExprs? unknown acc xs)
      (Polynomial.productOfExprs? (symbolicCoefficients answer) unknown acc xs) := by
  induction xs generalizing acc with
  | nil =>
    rw [productOfExprs?, Polynomial.productOfExprs?]
    exact .done _
  | cons x xs ih =>
    obtain ⟨hx, hxs⟩ := List.forall_mem_cons.mp parts
    obtain ⟨first, rest⟩ := List.forall_mem_cons.mp each
    rw [productOfExprs?, Polynomial.productOfExprs?, Option.bind_eq_bind]
    refine first.andThen fun p read => ?_
    have hp := termsIn_read simple hx read
    exact (mul_gives simple within ha hp).bind
      (ih hxs rest (Polynomial.termsIn_mul (symbolicCoefficients_closed simple S) ha hp))

/-- An expression is read as the polynomial it is, and the coefficients asked for are over its other
identifiers. -/
theorem ofExpr?_gives {e : Expr} (h : e.NamesIn (insert unknown S)) :
    Gives answer allowed (ofExpr? unknown e)
      (Polynomial.ofExpr? (symbolicCoefficients answer) unknown e) := by
  have closed := symbolicCoefficients_closed simple S
  induction e with
  | number n =>
    unfold ofExpr? Polynomial.ofExpr?
    exact .ite (fun _ => .done _) fun _ => .done _
  | complex z =>
    unfold ofExpr? Polynomial.ofExpr?
    exact .ite (fun _ => .done _) fun _ => .done _
  | ident name =>
    unfold ofExpr? Polynomial.ofExpr?
    split <;> exact .done _
  | call f xs ih =>
    unfold ofExpr? Polynomial.ofExpr?
    exact .ite (fun _ => .done _) fun _ => .done _
  | node op xs ih =>
    have parts := Expr.namesIn_node.mp h
    have each : ∀ x ∈ xs, Gives answer allowed (ofExpr? unknown x)
        (Polynomial.ofExpr? (symbolicCoefficients answer) unknown x) := fun x member =>
      ih x member (parts x member)
    unfold ofExpr? Polynomial.ofExpr?
    refine .ite (fun _ => .done _) fun _ => ?_
    cases op with
    | add => exact sumOfExprs?_gives simple within parts each Polynomial.termsIn_nil
    | multiply =>
      exact productOfExprs?_gives simple within parts each
        (Polynomial.termsIn_monomial Expr.namesIn_one 0)
    | subtract =>
      rcases xs with _ | ⟨a, _ | ⟨b, _ | ⟨c, xs⟩⟩⟩
      case cons.cons.nil =>
        refine (each a (by simp)).andThen fun p hp => (each b (by simp)).andThen fun q hq => ?_
        exact (sub_gives simple within (termsIn_read simple (parts a (by simp)) hp)
          (termsIn_read simple (parts b (by simp)) hq)).map
      all_goals exact .done _
    | divide =>
      rcases xs with _ | ⟨a, _ | ⟨b, _ | ⟨c, xs⟩⟩⟩
      case cons.cons.nil =>
        refine .ite (fun _ => .done _) fun free => .ite (fun _ => .done _) fun _ => ?_
        have divisor : b.NamesIn S := (parts b (by simp)).of_insert (Bool.eq_false_iff.mpr free)
        have inverse : (Expr.div .one b).NamesIn S :=
          Expr.namesIn_div.mpr ⟨Expr.namesIn_one, divisor⟩
        refine (each a (by simp)).andThen fun p hp => ?_
        have terms := termsIn_read simple (parts a (by simp)) hp
        refine (Gives.request (within _ inverse)).bind
          (Gives.map (mapTerms_gives fun t member => ?_))
        exact within _ (Expr.namesIn_mul.mpr ⟨terms t member, simple S _ inverse⟩)
      all_goals exact .done _
    | power =>
      rcases xs with _ | ⟨base, _ | ⟨exponent, _ | ⟨c, xs⟩⟩⟩
      case cons.cons.nil =>
        cases exponent with
        | number n =>
          dsimp only
          show Gives answer allowed _ (n.uint64?.bind fun k =>
            (Polynomial.ofExpr? (symbolicCoefficients answer) unknown base).bind fun p =>
              some (p.pow (symbolicCoefficients answer).toCoefficientRing k))
          cases n.uint64? with
          | none => exact .done _
          | some k =>
            refine (each base (by simp)).andThen fun p hp => ?_
            exact (pow_gives simple within (termsIn_read simple (parts base (by simp)) hp) k).map
        | _ => exact .done _
      case cons.cons.cons => cases exponent <;> exact .done _
      all_goals exact .done _
    | _ => exact .done _

end Arithmetic

end Asking

end SymbolicAlgebra
