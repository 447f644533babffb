import Mathlib.Algebra.CharZero.Infinite
import Mathlib.Algebra.Polynomial.Roots
import SymbolicAlgebra.Proofs.Identifiers
import SymbolicAlgebra.Proofs.PolynomialDegrees

open Polynomial

/-! Trees that are read as polynomials over the numerals: they have a value for every number in the
place of the unknown, their degree is no less than any exponent, and a polynomial written as a tree
is read back as it was. -/
namespace SymbolicAlgebra

namespace Expr

/-- A numeral, or a complex numeral in both parts, is exact. -/
def hasExactNumeral : Expr → Bool
  | .number x => x.isExact
  | .complex z => z.re.isExact && z.im.isExact
  | _ => true

/-! ## Unknowns -/

theorem collectNames_of_namesIn {x : String} {e : Expr} (h : e.NamesIn {x}) {seen : List String}
    (one : seen = [] ∨ seen = [x]) : collectNames seen e = [] ∨ collectNames seen e = [x] := by
  have operands {xs : List Expr} (h : ∀ y ∈ xs, y.NamesIn {x})
      (ih : ∀ y ∈ xs, y.NamesIn {x} → ∀ {seen : List String}, seen = [] ∨ seen = [x] →
        collectNames seen y = [] ∨ collectNames seen y = [x])
      {seen : List String} (one : seen = [] ∨ seen = [x]) :
      collectAllNames seen xs = [] ∨ collectAllNames seen xs = [x] := by
    induction xs generalizing seen with
    | nil => exact one
    | cons y ys rest =>
      obtain ⟨here, there⟩ := List.forall_mem_cons.mp h
      exact rest there (fun z member => ih z (List.mem_cons_of_mem _ member))
        (ih y List.mem_cons_self here one)
  induction e generalizing seen with
  | number _ | complex _ => exact one
  | ident name =>
    have same : name ∈ ({x} : Set String) := namesIn_ident.mp h
    rw [Set.mem_singleton_iff] at same
    subst same
    rcases one with rfl | rfl <;> simp [collectNames, insertName]
  | call f xs ih => exact operands (namesIn_call.mp h) ih one
  | node op xs ih => exact operands (namesIn_node.mp h) ih one

/-- Without other names, the unknowns are the one name or none. -/
theorem unknowns_of_namesIn {x : String} (unknown : isNamedConstant x = false) {e : Expr}
    (h : e.NamesIn {x}) : e.unknowns = [] ∧ e.mentions x = false ∨ e.unknowns = [x] := by
  rcases collectNames_of_namesIn h (.inl rfl) with none | one
  · refine .inl ⟨by rw [unknowns, identifiers, none, List.filter_nil], ?_⟩
    rw [← Bool.not_eq_true, ← mem_identifiers, identifiers, none]
    exact List.not_mem_nil
  · refine .inr ?_
    rw [unknowns, identifiers, one]
    simp [unknown]

end Expr

namespace Polynomial

open SymbolicAlgebra.Reading

variable {C : Type} {R : CoefficientRing C} {E : ExprCoefficients C} {x : String}

/-! ## What is stored -/

/-- Terms by ascending exponent, without a coefficient that passes for zero. -/
abbrev Stored (R : CoefficientRing C) (p : Polynomial C) : Prop := p.Valid R fun _ => True

theorem addTerm_stored {exponent : Nat} (word : exponent < wordSize) (c : C) {ts : List (Nat × C)}
    (h : ValidTerms R (fun _ => True) ts) :
    ValidTerms R (fun _ => True) (addTerm R exponent c ts) := by
  refine ⟨addTerm_ordered exponent c h.ordered,
    addTerm_eachExponent (Q := (· < wordSize)) word h.words, fun _ _ => trivial, ?_⟩
  obtain ⟨-, -, -, nonzero⟩ := h
  induction ts with
  | nil =>
    unfold addTerm
    split
    · exact nonzero
    · rename_i notZero
      exact List.forall_mem_singleton.mpr (by simpa using notZero)
  | cons t ts ih =>
    obtain ⟨first, rest⟩ := List.forall_mem_cons.mp nonzero
    unfold addTerm
    split
    · split
      · exact nonzero
      · rename_i notZero
        exact List.forall_mem_cons.mpr ⟨by simpa using notZero, nonzero⟩
    · split
      · dsimp only
        split
        · exact rest
        · rename_i notZero
          exact List.forall_mem_cons.mpr ⟨by simpa using notZero, rest⟩
      · exact List.forall_mem_cons.mpr ⟨first, ih rest⟩

theorem monomial_stored (c : C) {n : Nat} (word : n < wordSize) : Stored R (monomial R c n) := by
  unfold monomial
  split
  · exact ValidTerms.nil
  · rename_i nonzero
    exact validTerms_cons.mpr ⟨nofun, word, trivial, by simpa using nonzero, ValidTerms.nil⟩

theorem add_stored {p q : Polynomial C} (hp : Stored R p) (hq : Stored R q) :
    Stored R (p.add R q) :=
  List.foldlRecOn q.terms _ hp fun _ h t member => addTerm_stored (hq.words t member) t.2 h

theorem mul_stored (p q : Polynomial C) : Stored R (p.mul R q) := by
  refine List.foldlRecOn p.terms _ ValidTerms.nil fun acc h s _ => ?_
  refine List.foldlRecOn q.terms _ h fun acc h t _ => ?_
  dsimp only
  split
  · exact h
  · exact addTerm_stored (Nat.mod_lt _ wordSize_pos) _ h

theorem mapTerms_stored {p : Polynomial C} (h : Stored R p) (f : C → C) :
    Stored R ⟨(p.terms.map fun t => (t.1, f t.2)).filter fun t => !R.isZero t.2⟩ := by
  refine ⟨List.Pairwise.filter _ ?_, fun t member => ?_, fun _ _ => trivial, fun t member => ?_⟩
  · exact List.pairwise_map.mpr h.ordered
  · obtain ⟨u, inside, rfl⟩ := List.mem_map.mp (List.mem_filter.mp member).1
    exact h.words u inside
  · simpa using (List.mem_filter.mp member).2

theorem pow_stored (p : Polynomial C) (n : Nat) : Stored R (p.pow R n) := by
  have onto {acc base : Polynomial C} (ha : Stored R acc) :
      Stored R (powerOnto (mul R) acc base n) := by
    fun_induction powerOnto (mul R) acc base n with
    | case1 => exact ha
    | case2 acc base n _ ih =>
      refine ih ?_
      split
      · exact mul_stored acc base
      · exact ha
  exact onto (monomial_stored R.one wordSize_pos)

/-- Whatever the coefficients are, what is read has its terms in order and no zero among them. -/
theorem ReadAs.stored {words : Prop} {e : Expr} {p : Polynomial C} (h : ReadAs E x words e p) :
    Stored E.toCoefficientRing p := by
  induction h with
  | constant => exact monomial_stored _ wordSize_pos
  | unknown => exact monomial_stored _ one_lt_wordSize
  | @sum xs mentioned q each ih =>
    exact List.foldlRecOn xs _ ValidTerms.nil fun _ ha y member => add_stored ha (ih y member)
  | @product xs mentioned q each _ ih =>
    exact List.foldlRecOn xs _ (monomial_stored _ wordSize_pos) fun acc _ y _ => mul_stored acc (q y)
  | difference _ _ _ minuend subtrahend => exact add_stored minuend (mapTerms_stored subtrahend _)
  | @quotient _ _ _ d _ _ _ _ _ dividend =>
    exact mapTerms_stored dividend fun c => E.mul c (E.div E.one d)
  | power => exact pow_stored _ _

/-! ## Over the numerals -/

section Numerals

variable {K : Type*} [Field K] [CharZero K]

theorem namesIn_of_rational? {S : Set String} {e : Expr} {r : Rat} (h : e.rational? = some r) :
    e.NamesIn S := by
  unfold Expr.rational? at h
  split at h
  · exact Expr.namesIn_number _
  · simp
  · cases h

/-- What is read as a constant numeral is one, or a quotient of two. -/
theorem numeral_constant {e : Expr} {c : Numeral} (exact : e.hasExactNumeral = true)
    (read : numeralCoefficients.constant? e = some c) (S : Set String) (R : Reading K) :
    R.Defined e ∧ e.NamesIn S ∧ ∃ r, c = .exact r ∧ R.val e = r := by
  unfold numeralCoefficients at read
  dsimp only at read
  split at read
  · cases read
    obtain ⟨r, rfl⟩ := Numeral.exists_exact exact
    exact ⟨rfl, Expr.namesIn_number _, r, rfl, rfl⟩
  · obtain ⟨r, rational, rfl⟩ := Option.map_eq_some_iff.mp read
    obtain ⟨defined, value⟩ := rational?_spec (R := R) rational
    exact ⟨defined, namesIn_of_rational? rational, r, rfl, value⟩

/-- A tree that is read over the numerals has a value wherever the unknown has one, and no other
identifier. -/
theorem ReadAs.defined {words : Prop} {e : Expr} {p : Polynomial Numeral}
    (h : ReadAs numeralCoefficients x words e p)
    (exact : e.AllParts fun part => part.hasExactNumeral = true) (R : Reading K) :
    R.Defined e ∧ e.NamesIn {x} := by
  induction h with
  | constant _ found =>
    obtain ⟨defined, names, -⟩ := numeral_constant exact.here found {x} R
    exact ⟨defined, names⟩
  | unknown => exact ⟨defined_ident x, Expr.namesIn_ident.mpr rfl⟩
  | sum _ _ _ ih =>
    have parts := fun y member => ih y member (exact.operands y member)
    exact ⟨(defined_node_add _).mpr fun y member => (parts y member).1,
      Expr.namesIn_node.mpr fun y member => (parts y member).2⟩
  | product _ _ _ _ ih =>
    have parts := fun y member => ih y member (exact.operands y member)
    exact ⟨(defined_node_multiply _).mpr fun y member => (parts y member).1,
      Expr.namesIn_node.mpr fun y member => (parts y member).2⟩
  | difference _ _ _ left right =>
    obtain ⟨minuend, leftNames⟩ := left (exact.operands _ (by simp))
    obtain ⟨subtrahend, rightNames⟩ := right (exact.operands _ (by simp))
    exact ⟨(defined_node_subtract _ _).mpr ⟨minuend, subtrahend⟩,
      Expr.namesIn_sub.mpr ⟨leftNames, rightNames⟩⟩
  | @quotient a b _ _ _ _ _ found nonzero above =>
    obtain ⟨dividend, names⟩ := above (exact.operands _ (by simp))
    obtain ⟨divisor, free, r, rfl, value⟩ :=
      numeral_constant (exact.operands b (by simp)).here found {x} R
    have proper : r ≠ 0 := fun zero => by simp [numeralCoefficients, zero, Numeral.isZero] at nonzero
    exact ⟨(defined_node_divide a b).mpr
      ⟨dividend, divisor, by rw [value]; exact Rat.cast_ne_zero.mpr proper⟩,
      Expr.namesIn_div.mpr ⟨names, free⟩⟩
  | @power base _ n _ _ natural _ _ inner =>
    obtain ⟨defined, names⟩ := inner (exact.operands _ (by simp))
    rw [Numeral.eq_of_uint64? natural]
    exact ⟨(defined_node_power base _).mpr
      ⟨defined, rfl, n, by simp, fun _ => Int.natCast_nonneg n⟩,
      Expr.namesIn_pow.mpr ⟨names, Expr.namesIn_number _⟩⟩

theorem Exact.evaluate_exact {p : Polynomial Numeral} (h : p.Exact) (v : Rat) :
    (p.evaluate exactArithmetic (.exact v)).isExact = true := by
  have law := numeralCoefficients_ring (K := ℚ)
  refine List.foldlRecOn (motive := fun acc => acc.isExact = true) (p.descending exactArithmetic) _
    law.zero.1 fun (acc : Numeral) exact c member => ?_
  exact (law.add (law.mul exact rfl).1 ((descending_spec law h).1 c member)).1

/-! ## The list of coefficients -/

theorem coefficientsBelow_reverse_getD (p : Polynomial C) (n k : Nat) :
    (p.coefficientsBelow R n).reverse.getD k R.zero = if k < n then p.coeff R k else R.zero := by
  induction n with
  | zero => simp [coefficientsBelow]
  | succ n ih =>
    rw [coefficientsBelow, List.reverse_cons, List.getD_eq_getElem?_getD, List.getElem?_append,
      List.length_reverse, length_coefficientsBelow]
    rcases Nat.lt_trichotomy k n with less | same | more
    · rw [if_pos less, ← List.getD_eq_getElem?_getD, ih, if_pos less,
        if_pos (Nat.lt_succ_of_lt less)]
    · simp [same]
    · rw [if_neg (by omega), if_neg (by omega), List.getElem?_eq_none (by simp; omega)]
      rfl

theorem coeff_eq_zero {p : Polynomial C} (h : p.Ascending) {k : Nat}
    (above : ∀ d, p.degree? = some d → d < k) : p.coeff R k = R.zero := by
  rw [coeff, lookup_eq_none, Option.getD_none]
  intro t member
  cases degree : p.degree? with
  | none => simp [terms_of_degree?_none degree] at member
  | some d =>
    have := h.upTo degree t member
    have := above d degree
    omega

/-- From the end, the list holds the coefficients by ascending exponent. -/
theorem descending_reverse_getD {p : Polynomial C} (h : p.Ascending) (k : Nat) :
    (p.descending R).reverse.getD k R.zero = p.coeff R k := by
  unfold descending
  cases degree : p.degree? with
  | none =>
    have := coeff_eq_zero (R := R) h (k := k) (by simp [degree])
    cases k <;> simp [this]
  | some d =>
    rw [coefficientsBelow_reverse_getD]
    split
    · rfl
    · rename_i above
      refine (coeff_eq_zero h fun e same => ?_).symm
      rw [degree, Option.some.injEq] at same
      omega

/-- The list starts with the leading coefficient, or is a zero. -/
theorem descending_eq_cons {P : C → Prop} {p : Polynomial C} (h : p.Valid R P) :
    ∃ c cs, p.descending R = c :: cs ∧
      (p.terms = [] ∧ c = R.zero ∧ cs = [] ∨ R.isZero c = false) := by
  unfold descending
  cases degree : p.degree? with
  | none => exact ⟨_, [], rfl, .inl ⟨terms_of_degree?_none degree, rfl, rfl⟩⟩
  | some d =>
    refine ⟨_, _, rfl, .inr ?_⟩
    rw [← h.leading_eq degree]
    exact (leading_stored h degree).2

/-- The coefficients that are read of a tree in one unknown. -/
theorem coefficients?_eq (integral : Bool) (unknown : isNamedConstant x = false) {e : Expr}
    (names : e.NamesIn {x}) {p : Polynomial Numeral}
    (read : ofExpr? numeralCoefficients x e = some p) :
    e.coefficients? integral =
      if integral && !(p.descending exactArithmetic).all Numeral.isInteger then none
      else some (p.descending exactArithmetic) := by
  rcases Expr.unknowns_of_namesIn unknown names with ⟨none, free⟩ | one
  · have absent : e.mentions "" = false := by
      rw [← Bool.not_eq_true]
      intro occurs
      have : "" ∈ e.unknowns := List.mem_filter.mpr ⟨Expr.mem_identifiers.mpr occurs, rfl⟩
      rw [none] at this
      cases this
    rw [ofExpr?_of_free free] at read
    simp only [Expr.coefficients?, none, ofExpr?_of_free absent, read]
  · simp only [Expr.coefficients?, one, read]

/-! ## Trees written for polynomials -/

/-- The tree is read as a polynomial with the image `f`. -/
def IsReadWith (x : String) (e : Expr) (f : ℚ[X]) : Prop :=
  ∃ q, ofExpr? numeralCoefficients x e = some q ∧ q.Exact ∧ image (Numeral.val ℚ) q = f

theorem IsReadWith.ofExpr?_eq {e : Expr} {f : ℚ[X]} (h : IsReadWith x e f)
    {p : Polynomial Numeral} (hp : p.Exact) (same : image (Numeral.val ℚ) p = f) :
    ofExpr? numeralCoefficients x e = some p := by
  obtain ⟨q, read, valid, value⟩ := h
  rw [read, (eq_iff_image_eq (K := ℚ) valid hp).mpr (value.trans same.symm)]

theorem monomial_exact {c : Numeral} (exact : c.isExact = true) {n : Nat} (word : n < wordSize) :
    (monomial exactArithmetic c n).Exact ∧
      image (Numeral.val ℚ) (monomial exactArithmetic c n) =
        Polynomial.C (c.val ℚ) * Polynomial.X ^ n :=
  monomial_spec numeralCoefficients_ring exact word

theorem ofExpr?_number (x : String) (y : Numeral) :
    ofExpr? numeralCoefficients x (.number y) = some (monomial exactArithmetic y 0) :=
  ofExpr?_of_free rfl

theorem isReadWith_number {y : Numeral} (exact : y.isExact = true) :
    IsReadWith x (.number y) (Polynomial.C (y.val ℚ)) := by
  obtain ⟨valid, value⟩ := monomial_exact exact wordSize_pos
  exact ⟨_, ofExpr?_number x y, valid, by rw [value, pow_zero, mul_one]⟩

theorem uint64?_natCast {n : Nat} (small : n < wordSize) :
    (Numeral.ofInt n).uint64? = some n := by
  have integer : (Numeral.ofInt n).integer? = some (n : ℤ) := by
    simp [Numeral.ofInt, Numeral.integer?]
  rw [Numeral.uint64?, integer]
  exact if_pos small

theorem mentions_variablePower (x : String) (n : Nat) :
    (variablePower x (n + 1)).mentions x = true := by
  cases n <;> simp [variablePower, Expr.pow]

theorem ofExpr?_ident (x : String) :
    ofExpr? numeralCoefficients x (.ident x) = some (monomial exactArithmetic .one 1) := by
  rw [ofExpr?, if_pos rfl]
  rfl

theorem isReadWith_variablePower (x : String) {n : Nat} (small : n + 1 < wordSize) :
    IsReadWith x (variablePower x (n + 1)) (Polynomial.X ^ (n + 1)) := by
  have law := numeralCoefficients_ring (K := ℚ)
  obtain ⟨valid, value⟩ := monomial_exact (c := .one) rfl one_lt_wordSize
  rw [Numeral.val_one, Polynomial.C_1, one_mul, pow_one] at value
  cases n with
  | zero => exact ⟨_, ofExpr?_ident x, valid, by rw [value, zero_add, pow_one]⟩
  | succ n =>
    have mentioned := mentions_variablePower x (n + 1)
    have shape : variablePower x (n + 1 + 1) =
      .node .power [.ident x, .number (.ofInt (n + 1 + 1 : ℕ))] := rfl
    refine ⟨(monomial exactArithmetic .one 1).pow exactArithmetic (n + 1 + 1), ?_,
      (pow_wrap law valid _).1, ?_⟩
    · rw [shape] at mentioned ⊢
      unfold ofExpr?
      rw [mentioned, Bool.not_true, if_neg Bool.false_ne_true]
      simp only [uint64?_natCast small, ofExpr?_ident, Option.bind_eq_bind, Option.bind_some]
    · rw [pow_image law valid (by rwa [value, Polynomial.natDegree_X, mul_one]), value]

/-- A term as it is written. -/
theorem times_variablePower (c : Numeral) (x : String) (n : Nat) :
    (Expr.number c).times (variablePower x n) =
      if c.isOne then variablePower x n
      else if n = 0 then .number c else .node .multiply [.number c, variablePower x n] := by
  match n with
  | 0 =>
    have kept : (Expr.number c).isOne = c.isOne := rfl
    have dropped : Expr.one.isOne = true := rfl
    change Expr.product (List.filter _ [Expr.number c, .one]) = _
    cases one : c.isOne <;> simp [kept, dropped, one, Expr.product, variablePower]
  | 1 | n + 2 =>
    cases one : c.isOne <;>
      simp [Expr.times, Expr.factors, variablePower, Expr.isOne, one, Expr.product, Expr.pow]

theorem eq_one_of_isOne {c : Numeral} (exact : c.isExact = true) (one : c.isOne = true) :
    c.val ℚ = 1 := by
  obtain ⟨r, rfl⟩ := Numeral.exists_exact exact
  have unit : r = 1 := by simpa [Numeral.isOne] using one
  rw [unit, Numeral.val_exact, Rat.cast_one]

theorem isReadWith_term (x : String) {c : Numeral} (exact : c.isExact = true) {n : Nat}
    (small : n < wordSize) :
    IsReadWith x ((Expr.number c).times (variablePower x n))
      (Polynomial.C (c.val ℚ) * Polynomial.X ^ n) := by
  have law := numeralCoefficients_ring (K := ℚ)
  rw [times_variablePower]
  cases n with
  | zero =>
    rw [pow_zero, mul_one]
    split
    · rename_i one
      rw [eq_one_of_isOne exact one, ← Numeral.val_one (K := ℚ)]
      exact isReadWith_number rfl
    · exact isReadWith_number exact
  | succ n =>
    rw [if_neg n.succ_ne_zero]
    obtain ⟨q, read, valid, value⟩ := isReadWith_variablePower x small
    split
    · rename_i one
      rw [eq_one_of_isOne exact one, Polynomial.C_1, one_mul]
      exact ⟨q, read, valid, value⟩
    obtain ⟨unit, unitValue⟩ := one_spec law
    obtain ⟨coefficient, coefficientValue⟩ := monomial_exact exact wordSize_pos
    rw [pow_zero, mul_one] at coefficientValue
    have whole :
        (Expr.node .multiply [.number c, variablePower x (n + 1)]).mentions x = true := by
      simp [mentions_variablePower]
    have scaled := mul_image law unit coefficient (by
      rw [unitValue, coefficientValue, Polynomial.natDegree_one, Polynomial.natDegree_C]
      exact wordSize_pos)
    rw [unitValue, coefficientValue, one_mul] at scaled
    have scaledValid := (mul_wrap law unit coefficient).1
    have product := mul_image law scaledValid valid (by
      rwa [scaled, value, Polynomial.natDegree_C, Polynomial.natDegree_X_pow, zero_add])
    refine ⟨_, ?_, (mul_wrap law scaledValid valid).1, by rw [product, scaled, value]⟩
    unfold ofExpr?
    rw [whole, Bool.not_true, if_neg Bool.false_ne_true]
    simp [productOfExprs?, ofExpr?_number, read]

/-- The tree that is written for a term. -/
def termTree (x : String) (t : Nat × Numeral) : Expr :=
  (Expr.number t.2).times (variablePower x t.1)

theorem isReadWith_termTrees (x : String) {ts : List (Nat × Numeral)}
    (each : ∀ t ∈ ts, t.1 < wordSize ∧ t.2.isExact = true) {acc : Polynomial Numeral}
    (ha : acc.Exact) :
    ∃ q, sumOfExprs? numeralCoefficients x acc (ts.map (termTree x)) = some q ∧ q.Exact ∧
      image (Numeral.val ℚ) q = image (Numeral.val ℚ) acc + termsImage (Numeral.val ℚ) ts := by
  induction ts generalizing acc with
  | nil => exact ⟨acc, rfl, ha, by simp⟩
  | cons t ts ih =>
    obtain ⟨⟨word, exact⟩, rest⟩ := List.forall_mem_cons.mp each
    obtain ⟨p, read, valid, value⟩ := isReadWith_term x exact word
    obtain ⟨sumValid, sum⟩ := add_spec (numeralCoefficients_ring (K := ℚ)) ha valid
    obtain ⟨q, others, result, total⟩ := ih rest sumValid
    refine ⟨q, ?_, result, ?_⟩
    · rw [List.map_cons, sumOfExprs?, termTree, read]
      exact others
    · rw [total, sum, value, termsImage_cons, add_assoc]

/-- A polynomial that is written as a tree is read back as it was. -/
theorem Exact.ofExpr?_toExpr (x : String) {p : Polynomial Numeral} (h : p.Exact) :
    ofExpr? numeralCoefficients x (p.toExpr numeralCoefficients x) = some p := by
  have each : ∀ t ∈ p.terms.reverse, t.1 < wordSize ∧ t.2.isExact = true := fun t member =>
    ⟨h.words t (List.mem_reverse.mp member), h.coefficients t (List.mem_reverse.mp member)⟩
  have whole : image (Numeral.val ℚ) p = termsImage (Numeral.val ℚ) p.terms.reverse := by
    rw [image, termsImage, termsImage, List.map_reverse, List.sum_reverse]
  have written : p.toExpr numeralCoefficients x = .sum (p.terms.reverse.map (termTree x)) := rfl
  refine IsReadWith.ofExpr?_eq ?_ h whole
  rw [written]
  rcases same : p.terms.reverse with _ | ⟨t, _ | ⟨u, ts⟩⟩
  · rw [termsImage_nil, ← Polynomial.C_0, ← Numeral.val_zero (K := ℚ)]
    exact isReadWith_number rfl
  · rw [same] at each
    obtain ⟨word, exact⟩ := each t List.mem_cons_self
    rw [termsImage_cons, termsImage_nil, add_zero]
    exact isReadWith_term x exact word
  · -- Of two exponents one is not zero, so that the sum has the unknown.
    have order : u.1 < t.1 := by
      have ordered := h.ordered
      rw [← List.reverse_reverse p.terms, same, List.pairwise_reverse] at ordered
      exact (List.pairwise_cons.mp ordered).1 u (by simp)
    have mentioned : (termTree x t).mentions x = true := by
      obtain ⟨n, positive⟩ := Nat.exists_eq_succ_of_ne_zero (Nat.ne_zero_of_lt order)
      rw [termTree, times_variablePower, positive, if_neg n.succ_ne_zero]
      split <;> simp [mentions_variablePower]
    have sum : (Expr.node .add ((t :: u :: ts).map (termTree x))).mentions x = true := by
      simp [mentioned]
    rw [same] at each
    obtain ⟨q, read, valid, value⟩ := isReadWith_termTrees x each zero_valid
    refine ⟨q, ?_, valid, by rw [value, image_zero, zero_add]⟩
    change ofExpr? numeralCoefficients x (.node .add ((t :: u :: ts).map (termTree x))) = some q
    unfold ofExpr?
    rw [sum, Bool.not_true, if_neg Bool.false_ne_true]
    exact read

/-! ## Reading back in words -/

theorem inWords_sum {xs : List Expr} (each : ∀ y ∈ xs, inWords E x y = true) :
    inWords E x (.sum xs) = true := by
  have all {ys : List Expr} (h : ∀ y ∈ ys, inWords E x y = true) : sumInWords E x ys = true := by
    induction ys with
    | nil => rfl
    | cons y ys ih =>
      obtain ⟨first, rest⟩ := List.forall_mem_cons.mp h
      rw [sumInWords, first, ih rest, Bool.or_true, Bool.and_true]
  rcases xs with _ | ⟨y, _ | ⟨z, ys⟩⟩
  · rfl
  · exact each y List.mem_cons_self
  · change inWords E x (.node .add (y :: z :: ys)) = true
    unfold inWords
    split
    · rfl
    · exact all each

theorem inWords_variablePower (x : String) {n : Nat} (small : n < 2 ^ 63) :
    inWords numeralCoefficients x (variablePower x n) = true := by
  match n with
  | 0 | 1 => rfl
  | n + 2 =>
    have word : n + 2 < wordSize := small.trans (by norm_num [wordSize])
    have power : PowFits (monomial exactArithmetic .one 1) (n + 2) := by
      have size : (n + 2).size ≤ 63 := Nat.size_le.mpr small
      have power : 2 ^ (n + 2).size ≤ 2 ^ 63 := Nat.pow_le_pow_right two_pos size
      have top := top_monomial_le (R := exactArithmetic) .one 1
      calc (monomial exactArithmetic .one 1).top * 2 ^ (n + 2).size ≤ 1 * 2 ^ 63 :=
            Nat.mul_le_mul top power
        _ < wordSize := by norm_num [wordSize]
    change inWords numeralCoefficients x
      (.node .power [.ident x, .number (.ofInt (n + 2 : ℕ))]) = true
    unfold inWords
    split
    · rfl
    · simp only [uint64?_natCast word, ofExpr?_ident, Option.all_some, power, inWords, decide_true,
        Bool.and_true]

theorem inWords_termTree (x : String) {t : Nat × Numeral} (exact : t.2.isExact = true)
    (small : t.1 < 2 ^ 63) : inWords numeralCoefficients x (termTree x t) = true := by
  have word : t.1 < wordSize := small.trans (by norm_num [wordSize])
  have power := inWords_variablePower x small
  rw [termTree, times_variablePower]
  split
  · exact power
  split
  · rfl
  rename_i positive
  obtain ⟨n, same⟩ := Nat.exists_eq_succ_of_ne_zero positive
  have law := numeralCoefficients_ring (K := ℚ)
  obtain ⟨valid, value⟩ := monomial_exact (c := .one) rfl word
  rw [Numeral.val_one, Polynomial.C_1, one_mul] at value
  have read : ofExpr? numeralCoefficients x (variablePower x t.1) =
      some (monomial exactArithmetic .one t.1) := by
    rw [same] at word valid value ⊢
    exact (isReadWith_variablePower x word).ofExpr?_eq valid value
  -- The factors are a constant and a power, and the accumulated products constants.
  obtain ⟨coefficient, coefficientValue⟩ := monomial_exact exact wordSize_pos
  obtain ⟨unit, unitValue⟩ := one_spec law
  have none : MulFits (one exactArithmetic) (monomial exactArithmetic t.2 0) :=
    lt_of_le_of_lt (Nat.add_le_add (top_monomial_le _ 0) (top_monomial_le _ 0)) wordSize_pos
  obtain ⟨scaledValid, scaled⟩ := mul_spec law unit coefficient none
  rw [unitValue, one_mul] at scaled
  have constant : (one exactArithmetic).mul exactArithmetic (monomial exactArithmetic t.2 0) =
      monomial exactArithmetic t.2 0 := (eq_iff_image_eq (K := ℚ) scaledValid coefficient).mpr scaled
  have fits : MulFits (monomial exactArithmetic t.2 0) (monomial exactArithmetic .one t.1) :=
    lt_of_le_of_lt (Nat.add_le_add (top_monomial_le _ 0) (top_monomial_le _ t.1))
      (by rwa [zero_add])
  unfold inWords
  split
  · rfl
  · simp only [productInWords, ofExpr?_number, read, power, Option.all_some, constant, none, fits,
      decide_true, Bool.and_true, inWords]

/-- A polynomial with exponents of 63 bits is read back without an exponent leaving the word. -/
theorem Exact.inWords_toExpr (x : String) {p : Polynomial Numeral} (h : p.Exact)
    (small : ∀ t ∈ p.terms, t.1 < 2 ^ 63) :
    inWords numeralCoefficients x (p.toExpr numeralCoefficients x) = true := by
  refine inWords_sum fun y member => ?_
  obtain ⟨t, inside, rfl⟩ := List.mem_map.mp member
  have stored := List.mem_reverse.mp inside
  exact inWords_termTree x (h.coefficients t stored) (small t stored)

end Numerals

theorem one_pow_eq (n : Nat) :
    (one exactArithmetic).pow exactArithmetic n = one exactArithmetic := by
  have law := numeralCoefficients_ring (K := ℚ)
  obtain ⟨unit, value⟩ := one_spec law
  have power := pow_image law unit (n := n) (by
    rw [value, Polynomial.natDegree_one, mul_zero]
    exact wordSize_pos)
  exact (eq_iff_image_eq (pow_wrap law unit n).1 unit).mpr (by rw [power, value, one_pow])

end Polynomial

end SymbolicAlgebra
