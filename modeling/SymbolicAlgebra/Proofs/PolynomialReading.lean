import SymbolicAlgebra.Polynomial.OfExpr
import SymbolicAlgebra.Proofs.PolynomialDivision

open Polynomial

/-! Expressions read as polynomials in one identifier: at the value of the identifier, the polynomial
has the value of the expression wherever no exponent leaves the word, and the expression written for a
polynomial has the value of the polynomial. -/
namespace SymbolicAlgebra

/-- The coefficients in `P` are read by `φ` as the expressions that they come from and stand for. -/
structure ExprCoefficients.Reads {C : Type} {K : Type*} [Field K] (E : ExprCoefficients C)
    (R : Reading K) (P : C → Prop) (φ : C → K) : Prop where
  ring : E.toCoefficientRing.Reads P φ
  constant? : ∀ {e c}, E.constant? e = some c → R.Defined e → P c ∧ φ c = R.val e
  toExpr : ∀ {c}, P c → R.Defined (E.toExpr c) ∧ R.val (E.toExpr c) = φ c

theorem Numeral.eq_of_uint64? {x : Numeral} {n : Nat} (h : x.uint64? = some n) :
    x = .exact n := by
  unfold uint64? at h
  split at h
  · rename_i integer
    simp only [Option.ite_none_right_eq_some, Option.some.injEq] at h
    obtain ⟨-, rfl⟩ := h
    exact isExact_of_integer? integer
  · cases h

namespace Polynomial

open SymbolicAlgebra.Reading

variable {C : Type} {K : Type*} [Field K] {E : ExprCoefficients C} {R : Reading K}
  {P : C → Prop} {φ : C → K} {unknown : String}

/-! ## Readings in words -/

mutual

/-- Whether the exponents stay in the word while an expression is read, as far as it is read. -/
def inWords (E : ExprCoefficients C) (unknown : String) : Expr → Bool
  | .node op xs =>
    if !(Expr.node op xs).mentions unknown then true
    else
      match op, xs with
      | .add, terms => sumInWords E unknown terms
      | .multiply, factors => productInWords E unknown (one E.toCoefficientRing) factors
      | .subtract, [a, b] =>
        inWords E unknown a && ((ofExpr? E unknown a).isNone || inWords E unknown b)
      | .divide, [a, b] =>
        b.mentions unknown || (E.constant? b).all E.isZero || inWords E unknown a
      | .power, [base, .number x] =>
        match x.uint64? with
        | some n =>
          inWords E unknown base && (ofExpr? E unknown base).all fun p => decide (PowFits p n)
        | none => true
      | _, _ => true
  | _ => true

def sumInWords (E : ExprCoefficients C) (unknown : String) : List Expr → Bool
  | [] => true
  | x :: xs =>
    inWords E unknown x && ((ofExpr? E unknown x).isNone || sumInWords E unknown xs)

def productInWords (E : ExprCoefficients C) (unknown : String) (acc : Polynomial C) :
    List Expr → Bool
  | [] => true
  | x :: xs =>
    inWords E unknown x && (ofExpr? E unknown x).all fun p =>
      decide (MulFits acc p) &&
        productInWords E unknown (acc.mul E.toCoefficientRing p) xs

end

/-! ## How a tree is read -/

/-- An expression without the unknown is read as a constant. -/
theorem ofExpr?_of_free {e : Expr} (free : e.mentions unknown = false) :
    ofExpr? E unknown e = (E.constant? e).map fun c => monomial E.toCoefficientRing c 0 := by
  cases e with
  | number _ | complex _ | call _ _ => simp only [ofExpr?, free, Bool.false_eq_true, ↓reduceIte]
  | ident name => rw [ofExpr?, if_neg (by simpa [Expr.mentions] using free)]
  | node op xs =>
    unfold ofExpr?
    rw [free, Bool.not_false, if_pos rfl]

/-- No exponent leaves the word while the polynomials of the trees are multiplied onto `acc`. -/
def ProductsFit (R : CoefficientRing C) (q : Expr → Polynomial C) :
    Polynomial C → List Expr → Prop
  | _, [] => True
  | acc, y :: ys => MulFits acc (q y) ∧ ProductsFit R q (acc.mul R (q y)) ys

theorem sumOfExprs?_eq_foldl {xs : List Expr} {acc p : Polynomial C}
    (read : sumOfExprs? E unknown acc xs = some p) :
    (∀ y ∈ xs, ofExpr? E unknown y = some ((ofExpr? E unknown y).getD zero)) ∧
      p = xs.foldl
        (fun acc y => acc.add E.toCoefficientRing ((ofExpr? E unknown y).getD zero)) acc := by
  induction xs generalizing acc with
  | nil =>
    cases read
    exact ⟨List.forall_mem_nil _, rfl⟩
  | cons y ys ih =>
    rw [sumOfExprs?, Option.bind_eq_bind, Option.bind_eq_some_iff] at read
    obtain ⟨q, first, rest⟩ := read
    obtain ⟨others, total⟩ := ih rest
    exact ⟨List.forall_mem_cons.mpr ⟨by simp [first], others⟩, by simpa [first] using total⟩

theorem inWords_of_sumInWords {xs : List Expr}
    (each : ∀ y ∈ xs, ofExpr? E unknown y = some ((ofExpr? E unknown y).getD zero))
    (words : sumInWords E unknown xs = true) : ∀ y ∈ xs, inWords E unknown y = true := by
  induction xs with
  | nil => exact List.forall_mem_nil _
  | cons y ys ih =>
    obtain ⟨first, rest⟩ := List.forall_mem_cons.mp each
    rw [sumInWords, first, Option.isNone_some, Bool.false_or, Bool.and_eq_true] at words
    exact List.forall_mem_cons.mpr ⟨words.1, ih rest words.2⟩

theorem productOfExprs?_eq_foldl {xs : List Expr} {acc p : Polynomial C}
    (read : productOfExprs? E unknown acc xs = some p) :
    (∀ y ∈ xs, ofExpr? E unknown y = some ((ofExpr? E unknown y).getD zero)) ∧
      p = xs.foldl
        (fun acc y => acc.mul E.toCoefficientRing ((ofExpr? E unknown y).getD zero)) acc := by
  induction xs generalizing acc with
  | nil =>
    cases read
    exact ⟨List.forall_mem_nil _, rfl⟩
  | cons y ys ih =>
    rw [productOfExprs?, Option.bind_eq_bind, Option.bind_eq_some_iff] at read
    obtain ⟨q, first, rest⟩ := read
    obtain ⟨others, total⟩ := ih rest
    exact ⟨List.forall_mem_cons.mpr ⟨by simp [first], others⟩, by simpa [first] using total⟩

theorem inWords_of_productInWords {xs : List Expr} {acc : Polynomial C}
    (each : ∀ y ∈ xs, ofExpr? E unknown y = some ((ofExpr? E unknown y).getD zero))
    (words : productInWords E unknown acc xs = true) :
    (∀ y ∈ xs, inWords E unknown y = true) ∧
      ProductsFit E.toCoefficientRing (fun y => (ofExpr? E unknown y).getD zero) acc xs := by
  induction xs generalizing acc with
  | nil => exact ⟨List.forall_mem_nil _, trivial⟩
  | cons y ys ih =>
    obtain ⟨first, rest⟩ := List.forall_mem_cons.mp each
    rw [productInWords, first, Option.all_some, Bool.and_eq_true, Bool.and_eq_true,
      decide_eq_true_eq] at words
    obtain ⟨here, fits, others⟩ := words
    obtain ⟨inside, products⟩ := ih rest others
    exact ⟨List.forall_mem_cons.mpr ⟨here, inside⟩, fits, products⟩

/-- A tree is read as the polynomial: without the unknown as a constant, otherwise part by part. If
`words` holds, no exponent leaves the word on the way. -/
inductive ReadAs (E : ExprCoefficients C) (x : String) (words : Prop) :
    Expr → Polynomial C → Prop where
  | constant {e : Expr} {c : C} (free : e.mentions x = false) (found : E.constant? e = some c) :
      ReadAs E x words e (monomial E.toCoefficientRing c 0)
  | unknown : ReadAs E x words (.ident x) (monomial E.toCoefficientRing E.one 1)
  | sum {xs : List Expr} (mentioned : (Expr.node .add xs).mentions x = true)
      (q : Expr → Polynomial C) (each : ∀ y ∈ xs, ReadAs E x words y (q y)) :
      ReadAs E x words (.node .add xs)
        (xs.foldl (fun acc y => acc.add E.toCoefficientRing (q y)) zero)
  | product {xs : List Expr} (mentioned : (Expr.node .multiply xs).mentions x = true)
      (q : Expr → Polynomial C) (each : ∀ y ∈ xs, ReadAs E x words y (q y))
      (fits : words → ProductsFit E.toCoefficientRing q (one E.toCoefficientRing) xs) :
      ReadAs E x words (.node .multiply xs)
        (xs.foldl (fun acc y => acc.mul E.toCoefficientRing (q y)) (one E.toCoefficientRing))
  | difference {a b : Expr} {p q : Polynomial C}
      (mentioned : (Expr.node .subtract [a, b]).mentions x = true) (left : ReadAs E x words a p)
      (right : ReadAs E x words b q) :
      ReadAs E x words (.node .subtract [a, b]) (p.sub E.toCoefficientRing q)
  | quotient {a b : Expr} {p : Polynomial C} {d : C}
      (mentioned : (Expr.node .divide [a, b]).mentions x = true) (dividend : ReadAs E x words a p)
      (free : b.mentions x = false) (found : E.constant? b = some d)
      (nonzero : E.isZero d = false) :
      ReadAs E x words (.node .divide [a, b]) (p.scale E.toCoefficientRing (E.div E.one d))
  | power {base : Expr} {y : Numeral} {n : Nat} {p : Polynomial C}
      (mentioned : (Expr.node .power [base, .number y]).mentions x = true)
      (natural : y.uint64? = some n) (inner : ReadAs E x words base p)
      (fits : words → PowFits p n) :
      ReadAs E x words (.node .power [base, .number y]) (p.pow E.toCoefficientRing n)

theorem readAs_of_ofExpr? {words : Prop} {e : Expr} {p : Polynomial C}
    (read : ofExpr? E unknown e = some p) (h : words → inWords E unknown e = true) :
    ReadAs E unknown words e p := by
  have constant {e : Expr} (free : e.mentions unknown = false) {p : Polynomial C}
      (read : ofExpr? E unknown e = some p) : ReadAs E unknown words e p := by
    rw [ofExpr?_of_free free] at read
    obtain ⟨c, found, rfl⟩ := Option.map_eq_some_iff.mp read
    exact .constant free found
  induction e generalizing p with
  | number _ | complex _ => exact constant rfl read
  | ident name =>
    by_cases same : name = unknown
    · rw [ofExpr?, if_pos same] at read
      cases read
      exact same ▸ .unknown
    · exact constant (by simpa [Expr.mentions] using same) read
  | call f xs =>
    cases free : (Expr.call f xs).mentions unknown with
    | false => exact constant free read
    | true => simp only [ofExpr?, free, ↓reduceIte, reduceCtorEq] at read
  | node op xs ih =>
    cases mentioned : (Expr.node op xs).mentions unknown with
    | false => exact constant mentioned read
    | true =>
    unfold ofExpr? at read
    unfold inWords at h
    rw [mentioned, Bool.not_true, if_neg Bool.false_ne_true] at read h
    split at read
    · obtain ⟨each, rfl⟩ := sumOfExprs?_eq_foldl read
      exact .sum mentioned _ fun y member =>
        ih y member (each y member) fun w => inWords_of_sumInWords each (h w) y member
    · obtain ⟨each, rfl⟩ := productOfExprs?_eq_foldl read
      exact .product mentioned _
        (fun y member => ih y member (each y member)
          fun w => (inWords_of_productInWords each (h w)).1 y member)
        fun w => (inWords_of_productInWords each (h w)).2
    · rename_i a b
      simp only [Option.bind_eq_bind, Option.bind_eq_some_iff, Option.some.injEq] at read
      obtain ⟨p, left, q, right, rfl⟩ := read
      simp only [left, Option.isNone_some, Bool.false_or, Bool.and_eq_true] at h
      exact .difference mentioned (ih a (by simp) left fun w => (h w).1)
        (ih b (by simp) right fun w => (h w).2)
    · rename_i a b
      split at read
      · cases read
      rename_i free
      simp only [Option.bind_eq_bind, Option.bind_eq_some_iff] at read
      obtain ⟨d, found, rest⟩ := read
      split at rest
      · cases rest
      rename_i nonzero
      simp only [Option.bind_eq_some_iff, Option.some.injEq] at rest
      obtain ⟨p, dividend, rfl⟩ := rest
      simp only [free, found, Option.all_some, nonzero, Bool.false_or] at h
      exact .quotient mentioned (ih a (by simp) dividend h) (by simpa using free) found
        (by simpa using nonzero)
    · rename_i base exponent
      simp only [Option.bind_eq_bind, Option.bind_eq_some_iff, Option.some.injEq] at read
      obtain ⟨n, natural, p, inner, rfl⟩ := read
      simp only [natural, inner, Option.all_some, Bool.and_eq_true, decide_eq_true_eq] at h
      exact .power mentioned natural (ih base (by simp) inner fun w => (h w).1) fun w => (h w).2
    · cases read

/-! ## The value of what is read -/

/-- The value of a polynomial where the unknown has its own. -/
noncomputable def valueAt (φ : C → K) (R : Reading K) (unknown : String) (p : Polynomial C) : K :=
  (image φ p).eval (R.ident unknown)

/-- An expression is a polynomial in the unknown with coefficients in the field. -/
inductive IsPolynomial (R : Reading K) (unknown : String) : Expr → K[X] → Prop where
  | constant {e : Expr} : e.mentions unknown = false → IsPolynomial R unknown e (.C (R.val e))
  | unknown : IsPolynomial R unknown (.ident unknown) .X
  | add {e : Expr} {es : List Expr} {f g : K[X]} : IsPolynomial R unknown e f →
      IsPolynomial R unknown (.node .add es) g → IsPolynomial R unknown (.node .add (e :: es)) (f + g)
  | multiply {e : Expr} {es : List Expr} {f g : K[X]} : IsPolynomial R unknown e f →
      IsPolynomial R unknown (.node .multiply es) g →
      IsPolynomial R unknown (.node .multiply (e :: es)) (f * g)
  | subtract {a b : Expr} {f g : K[X]} : IsPolynomial R unknown a f → IsPolynomial R unknown b g →
      IsPolynomial R unknown (.node .subtract [a, b]) (f - g)
  | divide {a b : Expr} {f : K[X]} : IsPolynomial R unknown a f → b.mentions unknown = false →
      IsPolynomial R unknown (.node .divide [a, b]) (f * .C (R.val b)⁻¹)
  | power {a : Expr} {f : K[X]} (n : Nat) : IsPolynomial R unknown a f →
      IsPolynomial R unknown (.node .power [a, .number (.exact n)]) (f ^ n)

theorem IsPolynomial.eval [CharZero K] {e : Expr} {f : K[X]} (h : IsPolynomial R unknown e f) :
    f.eval (R.ident unknown) = R.val e := by
  induction h with
  | constant => exact Polynomial.eval_C
  | unknown => exact Polynomial.eval_X
  | add _ _ first rest => simpa [Polynomial.eval_add, first] using rest
  | multiply _ _ first rest =>
    rw [Polynomial.eval_mul, first, rest]
    simp
  | subtract _ _ left right => rw [Polynomial.eval_sub, left, right, val_node_subtract]
  | divide _ _ dividend =>
    rw [Polynomial.eval_mul, dividend, Polynomial.eval_C, val_node_divide, div_eq_mul_inv]
  | power n _ base =>
    rw [Polynomial.eval_pow, base, val_node_power, val_exact, Rat.cast_natCast, power_natCast]

/-- A polynomial that an expression is. -/
def Represents (E : ExprCoefficients C) (R : Reading K) (P : C → Prop) (φ : C → K)
    (unknown : String) (e : Expr) (p : Polynomial C) : Prop :=
  p.Valid E.toCoefficientRing P ∧ IsPolynomial R unknown e (image φ p)

/-- Whether or not an exponent leaves the word, the coefficients are in `P`. -/
theorem ReadAs.valid (law : E.Reads R P φ) {words : Prop} {e : Expr} {p : Polynomial C}
    (read : ReadAs E unknown words e p) (h : R.Defined e) : p.Valid E.toCoefficientRing P := by
  induction read with
  | constant _ found => exact (monomial_spec law.ring (law.constant? found h).1 wordSize_pos).1
  | unknown => exact (monomial_spec law.ring law.ring.one.1 one_lt_wordSize).1
  | @sum xs _ q _ ih =>
    have parts := (defined_node_add xs).mp h
    exact List.foldlRecOn xs _ zero_valid fun acc valid x member =>
      (add_spec law.ring valid (ih x member (parts x member))).1
  | @product xs _ q _ _ ih =>
    have parts := (defined_node_multiply xs).mp h
    exact List.foldlRecOn xs _ (one_spec law.ring).1 fun acc valid x member =>
      (mul_wrap law.ring valid (ih x member (parts x member))).1
  | @difference a b _ _ _ _ _ left right =>
    obtain ⟨ha, hb⟩ := (defined_node_subtract a b).mp h
    exact (sub_spec law.ring (left ha) (right hb)).1
  | @quotient a b _ _ _ _ free found _ dividend =>
    obtain ⟨ha, hb, nonzero⟩ := (defined_node_divide a b).mp h
    obtain ⟨inside, divisor⟩ := law.constant? found hb
    rw [← divisor] at nonzero
    exact (scale_spec law.ring (dividend ha) (law.ring.div law.ring.one.1 inside nonzero).1).1
  | @power base _ n _ _ _ _ _ inner =>
    obtain ⟨hb, -, -⟩ := (defined_node_power base _).mp h
    exact (pow_wrap law.ring (inner hb) n).1

theorem foldl_add_represents (law : E.Reads R P φ) {xs : List Expr} {q : Expr → Polynomial C}
    (each : ∀ x ∈ xs, R.Defined x → Represents E R P φ unknown x (q x))
    (h : ∀ x ∈ xs, R.Defined x) {acc : Polynomial C} (ha : acc.Valid E.toCoefficientRing P) :
    let p := xs.foldl (fun acc x => acc.add E.toCoefficientRing (q x)) acc
    p.Valid E.toCoefficientRing P ∧
      ∃ f, IsPolynomial R unknown (.node .add xs) f ∧ image φ p = image φ acc + f := by
  induction xs generalizing acc with
  | nil => exact ⟨ha, _, .constant rfl, by simp⟩
  | cons x xs ih =>
    obtain ⟨hx, hxs⟩ := List.forall_mem_cons.mp h
    obtain ⟨first, rest⟩ := List.forall_mem_cons.mp each
    obtain ⟨valid, here⟩ := first hx
    obtain ⟨sumValid, sumImage⟩ := add_spec law.ring ha valid
    obtain ⟨result, f, others, total⟩ := ih rest hxs sumValid
    exact ⟨result, _, .add here others, by rw [List.foldl_cons, total, sumImage, add_assoc]⟩

theorem foldl_mul_represents (law : E.Reads R P φ) {xs : List Expr} {q : Expr → Polynomial C}
    (each : ∀ x ∈ xs, R.Defined x → Represents E R P φ unknown x (q x))
    (h : ∀ x ∈ xs, R.Defined x) {acc : Polynomial C} (ha : acc.Valid E.toCoefficientRing P)
    (fits : ProductsFit E.toCoefficientRing q acc xs) :
    let p := xs.foldl (fun acc x => acc.mul E.toCoefficientRing (q x)) acc
    p.Valid E.toCoefficientRing P ∧
      ∃ f, IsPolynomial R unknown (.node .multiply xs) f ∧ image φ p = image φ acc * f := by
  induction xs generalizing acc with
  | nil => exact ⟨ha, _, .constant rfl, by simp⟩
  | cons x xs ih =>
    obtain ⟨hx, hxs⟩ := List.forall_mem_cons.mp h
    obtain ⟨first, rest⟩ := List.forall_mem_cons.mp each
    obtain ⟨valid, here⟩ := first hx
    obtain ⟨productValid, productImage⟩ := mul_spec law.ring ha valid fits.1
    obtain ⟨result, f, others, total⟩ := ih rest hxs productValid fits.2
    exact ⟨result, _, .multiply here others,
      by rw [List.foldl_cons, total, productImage, mul_assoc]⟩

/-- What is read in words is a polynomial. -/
theorem ReadAs.represents (law : E.Reads R P φ) {e : Expr} {p : Polynomial C}
    (read : ReadAs E unknown True e p) (h : R.Defined e) : Represents E R P φ unknown e p := by
  induction read with
  | constant free found =>
    obtain ⟨inside, value⟩ := law.constant? found h
    obtain ⟨valid, same⟩ := monomial_spec law.ring inside wordSize_pos
    rw [pow_zero, mul_one, value] at same
    exact ⟨valid, same ▸ .constant free⟩
  | unknown =>
    obtain ⟨valid, value⟩ := monomial_spec law.ring law.ring.one.1 one_lt_wordSize
    rw [law.ring.one.2, Polynomial.C_1, one_mul, pow_one] at value
    exact ⟨valid, value ▸ .unknown⟩
  | sum _ q _ ih =>
    obtain ⟨valid, f, sum, value⟩ :=
      foldl_add_represents law ih ((defined_node_add _).mp h) zero_valid
    rw [image_zero, zero_add] at value
    exact ⟨valid, value ▸ sum⟩
  | product _ q _ fits ih =>
    obtain ⟨unitValid, unitImage⟩ := one_spec law.ring
    obtain ⟨valid, f, product, value⟩ :=
      foldl_mul_represents law ih ((defined_node_multiply _).mp h) unitValid (fits trivial)
    rw [unitImage, one_mul] at value
    exact ⟨valid, value ▸ product⟩
  | @difference a b _ _ _ _ _ left right =>
    obtain ⟨ha, hb⟩ := (defined_node_subtract a b).mp h
    obtain ⟨leftValid, minuend⟩ := left ha
    obtain ⟨rightValid, subtrahend⟩ := right hb
    obtain ⟨valid, value⟩ := sub_spec law.ring leftValid rightValid
    exact ⟨valid, value ▸ .subtract minuend subtrahend⟩
  | @quotient a b _ _ _ _ free found _ dividend =>
    obtain ⟨ha, hb, nonzero⟩ := (defined_node_divide a b).mp h
    obtain ⟨inside, divisor⟩ := law.constant? found hb
    rw [← divisor] at nonzero
    obtain ⟨factor, factorValue⟩ := law.ring.div law.ring.one.1 inside nonzero
    obtain ⟨dividendValid, above⟩ := dividend ha
    obtain ⟨valid, value⟩ := scale_spec law.ring dividendValid factor
    rw [factorValue, law.ring.one.2, divisor, one_div] at value
    exact ⟨valid, value ▸ .divide above free⟩
  | @power base _ n _ _ natural _ fits inner =>
    obtain ⟨hb, -, -⟩ := (defined_node_power base _).mp h
    obtain ⟨baseValid, below⟩ := inner hb
    obtain ⟨valid, value⟩ := pow_spec law.ring baseValid (fits trivial)
    rw [Numeral.eq_of_uint64? natural]
    exact ⟨valid, value ▸ .power n below⟩

theorem ofExpr?_represents (law : E.Reads R P φ) {e : Expr} (h : R.Defined e) {p : Polynomial C}
    (read : ofExpr? E unknown e = some p) (words : inWords E unknown e = true) :
    Represents E R P φ unknown e p :=
  (readAs_of_ofExpr? read fun _ => words).represents law h

variable [CharZero K]

/-- What is read as a polynomial has its value. -/
theorem ofExpr?_spec (law : E.Reads R P φ) {e : Expr} (h : R.Defined e) {p : Polynomial C}
    (read : ofExpr? E unknown e = some p) (words : inWords E unknown e = true) :
    p.Valid E.toCoefficientRing P ∧ valueAt φ R unknown p = R.val e := by
  obtain ⟨valid, polynomial⟩ := ofExpr?_represents law h read words
  exact ⟨valid, polynomial.eval⟩

/-! ## Polynomials written as expressions -/

theorem variablePower_spec (unknown : String) (n : Nat) :
    R.Defined (variablePower unknown n) ∧
      R.val (variablePower unknown n) = R.ident unknown ^ n := by
  match n with
  | 0 => simp [variablePower]
  | 1 => simp [variablePower]
  | n + 2 =>
    refine ⟨(defined_pow _ _).mpr ⟨defined_ident _, defined_ofInt _, n + 2, by simp, ?_⟩, ?_⟩
    · intro _
      omega
    · have := power_natCast (R.ident unknown) (n + 2)
      simpa [variablePower] using this

theorem toExpr_spec (law : E.Reads R P φ) (unknown : String) {p : Polynomial C}
    (h : p.Valid E.toCoefficientRing P) :
    R.Defined (p.toExpr E unknown) ∧ R.val (p.toExpr E unknown) = valueAt φ R unknown p := by
  have term (t : Nat × C) (member : t ∈ p.terms) :
      R.Defined ((E.toExpr t.2).times (variablePower unknown t.1)) ∧
        R.val ((E.toExpr t.2).times (variablePower unknown t.1)) =
          φ t.2 * R.ident unknown ^ t.1 := by
    obtain ⟨coefficient, value⟩ := law.toExpr (h.coefficients t member)
    obtain ⟨power, powerValue⟩ := variablePower_spec (R := R) unknown t.1
    exact ⟨defined_times coefficient power, by rw [val_times coefficient power, value, powerValue]⟩
  rw [toExpr, defined_sum, val_sum]
  constructor
  · intro x member
    obtain ⟨t, inside, rfl⟩ := List.mem_map.mp member
    exact (term t (List.mem_reverse.mp inside)).1
  · rw [List.map_reverse, List.map_reverse, List.sum_reverse, List.map_map, valueAt, image,
      termsImage, ← Polynomial.coe_evalRingHom, map_list_sum, List.map_map]
    refine congrArg List.sum (List.map_congr_left fun t member => ?_)
    simp [(term t member).2]

end Polynomial

/-! ## Numerals and expressions as coefficients -/

section Coefficients

variable {K : Type*} [Field K] [CharZero K]

open SymbolicAlgebra.Reading

theorem numeralCoefficients_ring :
    numeralCoefficients.toCoefficientRing.Reads (fun x => x.isExact = true)
      (Numeral.val K) where
  zero := ⟨rfl, Numeral.val_zero⟩
  one := ⟨rfl, Numeral.val_one⟩
  add {a b} ha hb := by
    obtain ⟨r, rfl⟩ := Numeral.exists_exact ha
    obtain ⟨s, rfl⟩ := Numeral.exists_exact hb
    exact ⟨rfl, by simp [numeralCoefficients]⟩
  sub {a b} ha hb := by
    obtain ⟨r, rfl⟩ := Numeral.exists_exact ha
    obtain ⟨s, rfl⟩ := Numeral.exists_exact hb
    exact ⟨rfl, by simp [numeralCoefficients]⟩
  mul {a b} ha hb := by
    obtain ⟨r, rfl⟩ := Numeral.exists_exact ha
    obtain ⟨s, rfl⟩ := Numeral.exists_exact hb
    exact ⟨rfl, by simp [numeralCoefficients]⟩
  div {a b} ha hb nonzero := by
    obtain ⟨r, rfl⟩ := Numeral.exists_exact ha
    obtain ⟨s, rfl⟩ := Numeral.exists_exact hb
    have divisor : s ≠ 0 := fun zero => nonzero (by simp [zero])
    simp [numeralCoefficients, Numeral.div_exact divisor]
  neg {a} ha := by
    obtain ⟨r, rfl⟩ := Numeral.exists_exact ha
    exact ⟨rfl, by simp [numeralCoefficients]⟩
  isZero {a} ha zero := by
    obtain ⟨r, rfl⟩ := Numeral.exists_exact ha
    have : r = 0 := (Numeral.isZero_exact r).mp zero
    simp [this]

theorem numeralCoefficients_reads (R : Reading K) :
    numeralCoefficients.Reads R (fun x => x.isExact = true) (Numeral.val K) where
  ring := numeralCoefficients_ring
  constant? {e c} read h := by
    unfold numeralCoefficients at read
    dsimp only at read
    split at read
    · cases read
      exact ⟨h, rfl⟩
    · obtain ⟨r, rational, rfl⟩ := Option.map_eq_some_iff.mp read
      exact ⟨rfl, (rational?_spec rational).2.symm⟩
  toExpr exact := ⟨exact, rfl⟩

omit [CharZero K] in
theorem symbolicCoefficients_reads {R : Reading K} {simplify : Expr → Expr}
    (keeps : ∀ e, R.Keeps e (simplify e)) :
    (symbolicCoefficients simplify).Reads R R.Defined R.val where
  ring :=
    { zero := ⟨defined_zero, val_zero⟩
      one := ⟨defined_one, val_one⟩
      add := fun {a b} ha hb => by
        obtain ⟨defined, value⟩ := keeps (.add a b) ((defined_add a b).mpr ⟨ha, hb⟩)
        exact ⟨defined, value.trans (val_add a b)⟩
      sub := fun {a b} ha hb => by
        obtain ⟨defined, value⟩ := keeps (.sub a b) ((defined_sub a b).mpr ⟨ha, hb⟩)
        exact ⟨defined, value.trans (val_sub a b)⟩
      mul := fun {a b} ha hb => by
        obtain ⟨defined, value⟩ := keeps (.mul a b) ((defined_mul a b).mpr ⟨ha, hb⟩)
        exact ⟨defined, value.trans (val_mul a b)⟩
      div := fun {a b} ha hb nonzero => by
        obtain ⟨defined, value⟩ := keeps (.div a b) ((defined_div a b).mpr ⟨ha, hb, nonzero⟩)
        exact ⟨defined, value.trans (val_div a b)⟩
      neg := fun {a} ha => by
        obtain ⟨defined, value⟩ := keeps a.negate (defined_negate ha)
        exact ⟨defined, value.trans (val_negate ha)⟩
      isZero := fun ha zero => val_of_isZero ha zero }
  constant? read h := by
    cases read
    exact ⟨h, rfl⟩
  toExpr h := ⟨h, rfl⟩

end Coefficients

end SymbolicAlgebra
