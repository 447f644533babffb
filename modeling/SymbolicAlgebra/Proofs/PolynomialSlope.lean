import Mathlib.Algebra.Polynomial.Degree.Lemmas
import Mathlib.Algebra.Polynomial.Degree.SmallDegree
import Mathlib.Algebra.Polynomial.Derivative
import SymbolicAlgebra.Proofs.DerivativeRules
import SymbolicAlgebra.Proofs.PolynomialReading

open Polynomial

/-! The derivative of an expression that is a polynomial in the unknown has the value of the
derivative of the polynomial. -/
namespace SymbolicAlgebra

namespace Polynomial

open SymbolicAlgebra.Reading

variable {K : Type*} [Field K] {R : Reading K} {x : String}

/-! ## Polynomials that an expression is -/

namespace IsPolynomial

theorem add_nil {f : K[X]} (h : IsPolynomial R x (.node .add []) f) : f = 0 := by
  cases h
  simp

theorem multiply_nil {f : K[X]} (h : IsPolynomial R x (.node .multiply []) f) : f = 1 := by
  cases h
  simp

/-- Also the constant sums and products are those of their parts. -/
theorem add_cons {e : Expr} {es : List Expr} {f : K[X]}
    (h : IsPolynomial R x (.node .add (e :: es)) f) :
    ∃ g k, IsPolynomial R x e g ∧ IsPolynomial R x (.node .add es) k ∧ f = g + k := by
  cases h with
  | constant free =>
    rw [Expr.mentions_node, List.any_cons, Bool.or_eq_false_iff] at free
    refine ⟨_, _, .constant free.1, .constant ((Expr.mentions_node _ _).trans free.2), ?_⟩
    simp
  | add first rest => exact ⟨_, _, first, rest, rfl⟩

theorem multiply_cons {e : Expr} {es : List Expr} {f : K[X]}
    (h : IsPolynomial R x (.node .multiply (e :: es)) f) :
    ∃ g k, IsPolynomial R x e g ∧ IsPolynomial R x (.node .multiply es) k ∧ f = g * k := by
  cases h with
  | constant free =>
    rw [Expr.mentions_node, List.any_cons, Bool.or_eq_false_iff] at free
    refine ⟨_, _, .constant free.1, .constant ((Expr.mentions_node _ _).trans free.2), ?_⟩
    simp
  | multiply first rest => exact ⟨_, _, first, rest, rfl⟩

theorem subtract_sides {a b : Expr} {f : K[X]} (h : IsPolynomial R x (.sub a b) f) :
    ∃ g k, IsPolynomial R x a g ∧ IsPolynomial R x b k ∧ f = g - k := by
  cases h with
  | constant free =>
    have parts : a.mentions x = false ∧ b.mentions x = false := by simpa [Expr.sub] using free
    exact ⟨_, _, .constant parts.1, .constant parts.2, by simp⟩
  | subtract left right => exact ⟨_, _, left, right, rfl⟩

theorem divide_sides {a b : Expr} {f : K[X]} (h : IsPolynomial R x (.div a b) f) :
    ∃ g, IsPolynomial R x a g ∧ b.mentions x = false ∧ f = g * .C (R.val b)⁻¹ := by
  cases h with
  | constant free =>
    have parts : a.mentions x = false ∧ b.mentions x = false := by simpa [Expr.div] using free
    exact ⟨_, .constant parts.1, parts.2, by rw [← C_mul, val_div, div_eq_mul_inv]⟩
  | divide above free => exact ⟨_, above, free, rfl⟩

theorem power_sides {a b : Expr} {f : K[X]} (h : IsPolynomial R x (.pow a b) f) :
    (a.mentions x = false ∧ b.mentions x = false ∧ f = .C (R.val (.pow a b))) ∨
      ∃ g, ∃ n : Nat, b = .number (.exact n) ∧ IsPolynomial R x a g ∧ f = g ^ n := by
  cases h with
  | constant free =>
    have parts : a.mentions x = false ∧ b.mentions x = false := by simpa [Expr.pow] using free
    exact .inl ⟨parts.1, parts.2, rfl⟩
  | power n below => exact .inr ⟨_, n, rfl, below, rfl⟩

theorem exponent_free {a b : Expr} {f : K[X]} (h : IsPolynomial R x (.pow a b) f) :
    b.mentions x = false := by
  obtain ⟨-, free, -⟩ | ⟨g, n, rfl, -, -⟩ := h.power_sides
  · exact free
  · rfl

theorem of_call {g : NamedFunction} {xs : List Expr} {f : K[X]}
    (h : IsPolynomial R x (.call g xs) f) :
    (∀ e ∈ xs, e.mentions x = false) ∧ f = .C (R.val (.call g xs)) := by
  cases h with
  | constant free => exact ⟨by simpa using free, rfl⟩

/-- Without the unknown it is a constant. -/
theorem derivative_of_free {e : Expr} {f : K[X]} (h : IsPolynomial R x e f)
    (free : e.mentions x = false) : f.derivative = 0 := by
  induction h with
  | constant => exact derivative_C
  | unknown => simp at free
  | add _ _ first rest =>
    rw [Expr.mentions_node, List.any_cons, Bool.or_eq_false_iff] at free
    rw [derivative_add, first free.1, rest ((Expr.mentions_node _ _).trans free.2), add_zero]
  | multiply _ _ first rest =>
    rw [Expr.mentions_node, List.any_cons, Bool.or_eq_false_iff] at free
    rw [derivative_mul, first free.1, rest ((Expr.mentions_node _ _).trans free.2), zero_mul,
      mul_zero, add_zero]
  | subtract _ _ left right =>
    simp only [Expr.mentions_node, List.any_cons, List.any_nil, Bool.or_false,
      Bool.or_eq_false_iff] at free
    rw [derivative_sub, left free.1, right free.2, sub_zero]
  | divide _ _ above =>
    simp only [Expr.mentions_node, List.any_cons, List.any_nil, Bool.or_false,
      Bool.or_eq_false_iff] at free
    rw [derivative_mul, above free.1, derivative_C, zero_mul, mul_zero, add_zero]
  | power n _ below =>
    simp only [Expr.mentions_node, List.any_cons, List.any_nil, Bool.or_false,
      Bool.or_eq_false_iff] at free
    rw [derivative_pow, below free.1, mul_zero]

end IsPolynomial

/-! ## Slopes -/

/-- Wherever the derivative has a value, it is that of the derivative of the polynomial. -/
def SlopeOf (R : Reading K) (x : String) (e d : Expr) : Prop :=
  R.Defined d → ∀ f, IsPolynomial R x e f → R.val d = f.derivative.eval (R.ident x)

namespace SlopeOf

theorem of_free {e d : Expr} (h : SlopeOf R x e d) (free : e.mentions x = false)
    (defined : R.Defined d) : R.val d = 0 := by
  rw [h defined _ (.constant free), derivative_C, eval_zero]

theorem zero {e : Expr} (free : e.mentions x = false) : SlopeOf R x e .zero := by
  intro _ f h
  rw [h.derivative_of_free free, eval_zero, val_zero]

/-- A derivative that is zero is one of an expression without the unknown. -/
theorem of_zero {e d : Expr} (free : e.mentions x = false) (zero : R.Defined d → R.val d = 0) :
    SlopeOf R x e d := by
  intro defined f h
  rw [zero defined, ← SlopeOf.zero free defined_zero f h, val_zero]

theorem sum {ts ds : List Expr} (each : List.Forall₂ (SlopeOf R x) ts ds) :
    SlopeOf R x (.node .add ts) (.sum ds) := by
  intro defined f h
  rw [defined_sum] at defined
  rw [val_sum]
  induction each generalizing f with
  | nil => simp [h.add_nil]
  | cons first _ ih =>
    obtain ⟨here, there⟩ := List.forall_mem_cons.mp defined
    obtain ⟨g, k, hg, hk, rfl⟩ := h.add_cons
    rw [List.map_cons, List.sum_cons, first here g hg, ih there k hk, derivative_add, eval_add]

theorem sub {a b da db : Expr} (ha : SlopeOf R x a da) (hb : SlopeOf R x b db) :
    SlopeOf R x (.sub a b) (.sub da db) := by
  intro defined f h
  obtain ⟨left, right⟩ := (defined_sub da db).mp defined
  obtain ⟨g, k, hg, hk, rfl⟩ := h.subtract_sides
  rw [val_sub, ha left g hg, hb right k hk, derivative_sub, eval_sub]

theorem single {a d : Expr} (ha : SlopeOf R x a d) : SlopeOf R x (.node .multiply [a]) d := by
  intro defined f h
  obtain ⟨g, k, hg, hk, rfl⟩ := h.multiply_cons
  rw [hk.multiply_nil, mul_one]
  exact ha defined g hg

theorem accumulated {a b d : Expr} {rest : List Expr}
    (h : SlopeOf R x (.node .multiply (.product [a, b] :: rest)) d) :
    SlopeOf R x (.node .multiply (a :: b :: rest)) d := by
  intro defined f product
  obtain ⟨g, others, hg, ho, rfl⟩ := product.multiply_cons
  obtain ⟨k, l, hk, hl, rfl⟩ := ho.multiply_cons
  have one : IsPolynomial R x (.node .multiply []) 1 := by
    simpa using IsPolynomial.constant (R := R) (e := .node .multiply []) rfl
  have both : IsPolynomial R x (.product [a, b]) (g * (k * 1)) := .multiply hg (.multiply hk one)
  rw [h defined _ (.multiply both hl), mul_one, mul_assoc]

theorem quotient_constant {a b da : Expr} (ha : SlopeOf R x a da) :
    SlopeOf R x (.div a b) (.div da b) := by
  intro defined f h
  obtain ⟨top, -, -⟩ := (defined_div da b).mp defined
  obtain ⟨g, hg, -, rfl⟩ := h.divide_sides
  rw [val_div, ha top g hg, derivative_mul, derivative_C, mul_zero, add_zero, eval_mul, eval_C,
    div_eq_mul_inv]

theorem exponential {b c dc : Expr} (hc : SlopeOf R x c dc) (free : b.mentions x = false) :
    SlopeOf R x (.pow b c) (Expr.exponentialDerivative b c dc) := by
  intro defined f h
  have constant : (Expr.pow b c).mentions x = false := by
    simp [Expr.pow, free, h.exponent_free]
  refine of_zero constant (fun _ => ?_) defined f h
  obtain ⟨others, shape⟩ : ∃ others,
      Expr.exponentialDerivative b c dc = .product (others ++ [dc]) := by
    unfold Expr.exponentialDerivative
    split
    · exact ⟨[.pow b c], rfl⟩
    · exact ⟨[.pow b c, .ln b], rfl⟩
  rw [shape, defined_product] at defined
  rw [shape, val_product, List.map_append, List.prod_append]
  simp [hc.of_free h.exponent_free (defined dc (by simp))]

theorem call {g : NamedFunction} {u outer inner : Expr} (hu : SlopeOf R x u inner) :
    SlopeOf R x (.apply g u) (.product [outer, inner]) := by
  intro defined f h
  have free : u.mentions x = false := h.of_call.1 u List.mem_cons_self
  refine of_zero (by simp [Expr.apply, free]) (fun defined => ?_) defined f h
  simp only [defined_product, List.forall_mem_cons] at defined
  simp [hu.of_free free defined.2.1]

theorem log {b u dTop db : Expr} (hu : SlopeOf R x (.ln u) dTop) (hb : SlopeOf R x b db) :
    SlopeOf R x (.call .log [b, u])
      (Expr.quotientDerivative (.ln u) (.ln b) dTop (.product [b.reciprocal, db])) := by
  intro defined f h
  obtain ⟨base, argument, -⟩ : b.mentions x = false ∧ u.mentions x = false ∧ True := by
    simpa using h.of_call.1
  refine of_zero (by simp [base, argument]) (fun defined => ?_) defined f h
  simp only [Expr.quotientDerivative, defined_div, defined_sub, defined_product,
    List.forall_mem_cons] at defined
  obtain ⟨⟨⟨top, -⟩, -, ⟨-, inner, -⟩, -⟩, -⟩ := defined
  have logarithm : (Expr.ln u).mentions x = false := by simp [Expr.ln, Expr.apply, argument]
  simp [Expr.quotientDerivative, hu.of_free logarithm top, hb.of_free base inner]

theorem log_constant {b u inner : Expr} (hu : SlopeOf R x u inner) (free : b.mentions x = false) :
    SlopeOf R x (.call .log [b, u]) (.div inner (.product [u, .ln b])) := by
  intro defined f h
  have argument : u.mentions x = false := h.of_call.1 u (by simp)
  refine of_zero (by simp [free, argument]) (fun defined => ?_) defined f h
  simp [hu.of_free argument ((defined_div _ _).mp defined).1]

variable [CharZero K]

theorem times {a b da db : Expr} (ha : SlopeOf R x a da) (hb : SlopeOf R x b db) :
    SlopeOf R x (.product [a, b]) (.sum [.product [da, b], .product [a, db]]) := by
  intro defined f product
  simp only [defined_sum, List.forall_mem_cons, defined_product] at defined
  obtain ⟨⟨left, -⟩, ⟨-, right, -⟩, -⟩ := defined
  obtain ⟨g, others, hg, ho, rfl⟩ := IsPolynomial.multiply_cons product
  obtain ⟨k, l, hk, hl, rfl⟩ := ho.multiply_cons
  rw [hl.multiply_nil, mul_one, derivative_mul, eval_add, eval_mul, eval_mul, hg.eval, hk.eval,
    ← ha left g hg, ← hb right k hk]
  simp

theorem quotient {a b da db : Expr} (ha : SlopeOf R x a da) (hb : SlopeOf R x b db) :
    SlopeOf R x (.div a b) (Expr.quotientDerivative a b da db) := by
  intro defined f h
  obtain ⟨g, hg, free, rfl⟩ := h.divide_sides
  simp only [Expr.quotientDerivative, defined_div, defined_sub, defined_product,
    List.forall_mem_cons] at defined
  obtain ⟨⟨⟨top, -⟩, -, bottom, -⟩, -, nonzero⟩ := defined
  have square : R.val (.pow b (.ofInt 2)) = R.val b ^ 2 := by
    rw [val_pow, val_ofInt, power_intCast, zpow_ofNat]
  rw [square] at nonzero
  have divisor : R.val b ≠ 0 := fun zero => nonzero (by rw [zero, zero_pow two_ne_zero])
  rw [Expr.quotientDerivative, val_div, square, derivative_mul, derivative_C, mul_zero, add_zero,
    eval_mul, eval_C, ← ha top g hg]
  simp only [val_sub, val_product, List.map_cons, List.map_nil, List.prod_cons, List.prod_nil,
    hb.of_free free bottom]
  field_simp
  ring

/-- The value of `n * b ^ (n - 1)`, also for a constant. -/
theorem lowered (b : K) (n : Nat) : (n : K) * power b (n - 1 : K) = n * b ^ (n - 1) := by
  cases n with
  | zero => simp
  | succ n =>
    rw [Nat.cast_succ, add_sub_cancel_right, power_natCast, Nat.add_sub_cancel]

theorem power {b c db : Expr} (hb : SlopeOf R x b db) :
    SlopeOf R x (.pow b c) (Expr.powerDerivative b c db) := by
  intro defined f h
  simp only [Expr.powerDerivative, defined_product, List.forall_mem_cons] at defined
  obtain ⟨-, -, inner, -⟩ := defined
  obtain ⟨free, -, rfl⟩ | ⟨g, n, rfl, hg, rfl⟩ := h.power_sides
  · simp [Expr.powerDerivative, hb.of_free free inner]
  · have less : R.val (.ofNumeral ((Numeral.exact n).sub .one)) = n - 1 := by
      have difference : (Numeral.exact n).sub .one = .exact ((n : ℚ) - 1) := rfl
      rw [difference, (ofNumeral_keeps (R := R) (.exact ((n : ℚ) - 1)) rfl).2, val_exact]
      push_cast
      rfl
    rw [derivative_pow, eval_mul, eval_mul, eval_C, eval_pow, hg.eval, ← hb inner g hg]
    simp only [Expr.powerDerivative, val_product, List.map_cons, List.map_nil, List.prod_cons,
      List.prod_nil, mul_one, val_pow, less, val_exact, Rat.cast_natCast]
    rw [← mul_assoc, lowered]

theorem general_power {b c db dc : Expr} (hb : SlopeOf R x b db) (hc : SlopeOf R x c dc) :
    SlopeOf R x (.pow b c) (Expr.generalPowerDerivative b c db dc) := by
  intro defined f h
  simp only [Expr.generalPowerDerivative, defined_product, defined_sum, List.forall_mem_cons,
    defined_div] at defined
  -- The rule divides by the base: where it has a value, the base is not zero.
  obtain ⟨-, ⟨⟨outer, -⟩, ⟨⟨-, inner, -⟩, -, nonzero⟩, -⟩, -⟩ := defined
  have exponent := hc.of_free h.exponent_free outer
  obtain ⟨free, -, rfl⟩ | ⟨g, n, rfl, hg, rfl⟩ := h.power_sides
  · simp [Expr.generalPowerDerivative, exponent, hb.of_free free inner]
  · rw [derivative_pow, eval_mul, eval_mul, eval_C, eval_pow, hg.eval, ← hb inner g hg]
    simp only [Expr.generalPowerDerivative, val_product, val_sum, List.map_cons, List.map_nil,
      List.prod_cons, List.prod_nil, List.sum_cons, List.sum_nil, val_div, val_pow, val_exact,
      Rat.cast_natCast, power_natCast, exponent]
    cases n with
    | zero => simp
    | succ n =>
      rw [Nat.add_sub_cancel]
      field_simp
      ring

theorem rules : DerivativeRules x (SlopeOf R x) where
  constant := zero
  symbol := by
    intro _ f h
    cases h with
    | constant free => simp at free
    | unknown => simp
  sum := sum
  sub := sub
  single := single
  accumulated := accumulated
  times := times
  quotient := quotient
  quotient_constant ha _ := quotient_constant ha
  power hb _ := power hb
  exponential := exponential
  general_power := general_power
  call hu _ := call hu
  log := log
  log_constant := log_constant

end SlopeOf

/-- The derivative of a polynomial has the value of the polynomial's derivative. -/
theorem IsPolynomial.slope [CharZero K] {e d : Expr} {f : K[X]} (h : IsPolynomial R x e f)
    (derived : e.rawDerivative x = .ok d) (defined : R.Defined d) :
    R.val d = f.derivative.eval (R.ident x) :=
  SlopeOf.rules.rawDerivative derived defined f h

/-- A polynomial of degree one is the line of its two coefficients. -/
theorem image_linear {C : Type} {E : CoefficientRing C} {P : C → Prop} {φ : C → K}
    (law : E.Reads P φ) {p : Polynomial C} (h : p.Valid E P) (linear : p.degree? = some 1) :
    image φ p = .C (φ (p.coeff E 1)) * .X + .C (φ (p.coeff E 0)) := by
  have small : (image φ p).natDegree ≤ 1 := by
    refine natDegree_le_iff_coeff_eq_zero.mpr fun n above => ?_
    refine coeff_image_of_degree?_le h law fun k degree => ?_
    rw [linear, Option.some.injEq] at degree
    omega
  rw [eq_X_add_C_of_natDegree_le_one small, coeff_image law h, coeff_image law h]

end Polynomial

end SymbolicAlgebra
