import SymbolicAlgebra.Proofs.CallSlopes
import SymbolicAlgebra.Proofs.PolynomialTrees

open Polynomial

/-! Polynomials whose coefficients are constants of a field with a derivation: reading an expression,
writing one and long division go by the values, and a linear one has its leading coefficient for a
derivative. -/
namespace SymbolicAlgebra

namespace DifferentialReading

open SymbolicAlgebra.Polynomial

variable {K : Type*} [Field K] {M : DifferentialReading K} {x : String} {simplify : Expr → Expr}
  {e : Expr} {p : Polynomial Expr} {u v w : K}

/-! ## Coefficients -/

/-- The expression has a value, on which the derivation is zero. -/
def IsConstant (M : DifferentialReading K) (e : Expr) : Prop := ∃ v, M.value? e = some v ∧ M.D v = 0

noncomputable def valueOf (M : DifferentialReading K) (e : Expr) : K := (M.value? e).getD 0

theorem valueOf_eq (h : M.value? e = some v) : M.valueOf e = v := by
  rw [valueOf, h, Option.getD_some]

theorem isConstant_iff :
    M.IsConstant e ↔ M.value? e = some (M.valueOf e) ∧ M.D (M.valueOf e) = 0 := by
  constructor
  · rintro ⟨v, hv, constant⟩
    rw [valueOf_eq hv]
    exact ⟨hv, constant⟩
  · rintro ⟨value, constant⟩
    exact ⟨_, value, constant⟩

/-- A value of a simplified expression is one of the expression. -/
theorem KeepsValues.constant (keeps : M.KeepsValues simplify) (h : M.value? e = some v)
    (constant : M.D v = 0) : M.IsConstant (simplify e) ∧ M.valueOf (simplify e) = v :=
  ⟨⟨v, keeps e v h, constant⟩, valueOf_eq (keeps e v h)⟩

theorem value?_add_nil : M.value? (.node .add []) = some v ↔ 0 = v := by simp [operate?]

theorem value?_add_cons {t : Expr} {ts : List Expr} :
    M.value? (.node .add (t :: ts)) = some v ↔
      ∃ p, M.value? t = some p ∧ ∃ q, M.value? (.node .add ts) = some q ∧ p + q = v := by
  simp [operate?]

/-- Arithmetic on constants, each result simplified. -/
theorem symbolicCoefficients_constant (exact : M.Exact) (keeps : M.KeepsValues simplify) :
    (symbolicCoefficients simplify).toCoefficientRing.Reads M.IsConstant M.valueOf where
  zero := ⟨⟨0, value?_zero, map_zero _⟩, valueOf_eq value?_zero⟩
  one := ⟨⟨1, value?_one, M.D.map_one_eq_zero⟩, valueOf_eq value?_one⟩
  add {a b} ha hb := by
    obtain ⟨⟨p, hp, constant⟩, q, hq, constant'⟩ := And.intro ha hb
    rw [valueOf_eq hp, valueOf_eq hq]
    exact keeps.constant (value?_plus.mpr ⟨p, hp, q, hq, rfl⟩)
      (by rw [map_add, constant, constant', add_zero])
  sub {a b} ha hb := by
    obtain ⟨⟨p, hp, constant⟩, q, hq, constant'⟩ := And.intro ha hb
    rw [valueOf_eq hp, valueOf_eq hq]
    exact keeps.constant (value?_sub.mpr ⟨p, hp, q, hq, rfl⟩)
      (by rw [map_sub, constant, constant', sub_zero])
  mul {a b} ha hb := by
    obtain ⟨⟨p, hp, constant⟩, q, hq, constant'⟩ := And.intro ha hb
    rw [valueOf_eq hp, valueOf_eq hq]
    exact keeps.constant (value?_times.mpr ⟨p, hp, q, hq, rfl⟩) (by simp [constant, constant'])
  div {a b} ha hb nonzero := by
    obtain ⟨⟨p, hp, constant⟩, q, hq, constant'⟩ := And.intro ha hb
    rw [valueOf_eq hq] at nonzero
    rw [valueOf_eq hp, valueOf_eq hq]
    exact keeps.constant (value?_div.mpr ⟨p, hp, q, hq, nonzero, rfl⟩)
      (D_quotient_constants constant constant' (quotient?_eq_some.mpr ⟨nonzero, rfl⟩))
  neg {a} ha := by
    obtain ⟨p, hp, constant⟩ := ha
    rw [valueOf_eq hp]
    exact keeps.constant (exact.readsNumerals.value?_negate hp)
      (by rw [map_neg, constant, neg_zero])
  isZero {a} ha zero := by
    obtain ⟨p, hp, -⟩ := ha
    rw [valueOf_eq hp, exact.readsNumerals.value?_isZero zero hp]

/-- What a quotient of polynomials is to have a value for: the reciprocal of the leading coefficient
of the divisor. -/
def leadingReciprocal (simplify : Expr → Expr) (x : String) (d : Expr) : Expr :=
  let R := symbolicCoefficients simplify
  .reciprocal (((ofExpr? R x d).map fun p => p.leading R.toCoefficientRing).getD .one)

/-! ## Expressions as polynomials -/

/-- A polynomial in the symbol with constants for coefficients, and its value. -/
def HasPolynomialValue (M : DifferentialReading K) (simplify : Expr → Expr) (x : String)
    (p : Polynomial Expr) (v : K) : Prop :=
  p.Valid (symbolicCoefficients simplify).toCoefficientRing M.IsConstant ∧
    (p.image M.valueOf).eval (M.ident x) = v

section Reading

variable (laws : M.Elementary x) (keeps : M.KeepsValues simplify)
include laws keeps

theorem foldl_add_value {xs : List Expr} {q : Expr → Polynomial Expr}
    (each : ∀ y ∈ xs, ∀ {v}, M.value? y = some v → M.HasPolynomialValue simplify x (q y) v)
    {acc : Polynomial Expr} (ha : M.HasPolynomialValue simplify x acc u)
    (hv : M.value? (.node .add xs) = some v) :
    M.HasPolynomialValue simplify x
      (xs.foldl (fun acc y => acc.add (symbolicCoefficients simplify).toCoefficientRing (q y)) acc)
      (u + v) := by
  have law := symbolicCoefficients_constant laws.exact keeps
  induction xs generalizing acc u v with
  | nil => rwa [← value?_add_nil.mp hv, add_zero]
  | cons y ys ih =>
    obtain ⟨here, there⟩ := List.forall_mem_cons.mp each
    obtain ⟨a, hy, b, hys, rfl⟩ := value?_add_cons.mp hv
    obtain ⟨valid, value⟩ := here hy
    obtain ⟨sumValid, sum⟩ := add_spec law ha.1 valid
    rw [← add_assoc]
    exact ih there ⟨sumValid, by rw [sum, eval_add, ha.2, value]⟩ hys

theorem foldl_mul_value {xs : List Expr} {q : Expr → Polynomial Expr}
    (each : ∀ y ∈ xs, ∀ {v}, M.value? y = some v → M.HasPolynomialValue simplify x (q y) v)
    {acc : Polynomial Expr} (ha : M.HasPolynomialValue simplify x acc u)
    (fits : ProductsFit (symbolicCoefficients simplify).toCoefficientRing q acc xs)
    (hv : M.value? (.node .multiply xs) = some v) :
    M.HasPolynomialValue simplify x
      (xs.foldl (fun acc y => acc.mul (symbolicCoefficients simplify).toCoefficientRing (q y)) acc)
      (u * v) := by
  have law := symbolicCoefficients_constant laws.exact keeps
  induction xs generalizing acc u v with
  | nil => rwa [← value?_multiply_nil.mp hv, mul_one]
  | cons y ys ih =>
    obtain ⟨here, there⟩ := List.forall_mem_cons.mp each
    obtain ⟨a, hy, b, hys, rfl⟩ := value?_multiply_cons.mp hv
    obtain ⟨valid, value⟩ := here hy
    obtain ⟨productValid, product⟩ := mul_spec law ha.1 valid fits.1
    rw [← mul_assoc]
    exact ih there ⟨productValid, by rw [product, eval_mul, ha.2, value]⟩ fits.2 hys

/-- What is read in words as a polynomial has the value of it. -/
theorem value_of_readAs (h : ReadAs (symbolicCoefficients simplify) x True e p)
    (hv : M.value? e = some v) : M.HasPolynomialValue simplify x p v := by
  have law := symbolicCoefficients_constant laws.exact keeps
  induction h generalizing v with
  | constant free found =>
    cases found
    have constant := D_value_of_free laws.toLawful free hv
    obtain ⟨valid, value⟩ := monomial_spec law ⟨v, hv, constant⟩ wordSize_pos
    exact ⟨valid, by rw [value, valueOf_eq hv]; simp⟩
  | unknown =>
    obtain rfl : M.ident x = v := by simpa using hv
    obtain ⟨valid, value⟩ := monomial_spec law law.one.1 one_lt_wordSize
    exact ⟨valid, by rw [value, law.one.2]; simp⟩
  | sum mentioned q each ih =>
    have total := foldl_add_value laws keeps (fun y member => ih y member)
      ⟨zero_valid, by rw [image_zero, eval_zero]⟩ hv
    rwa [zero_add] at total
  | product mentioned q each fits ih =>
    obtain ⟨unit, value⟩ := one_spec law
    have total := foldl_mul_value laws keeps (fun y member => ih y member)
      ⟨unit, by rw [value, eval_one]⟩ (fits trivial) hv
    rwa [one_mul] at total
  | difference mentioned _ _ left right =>
    obtain ⟨a, ha, b, hb, rfl⟩ := value?_sub.mp hv
    obtain ⟨minuend, first⟩ := left ha
    obtain ⟨subtrahend, second⟩ := right hb
    obtain ⟨valid, value⟩ := sub_spec law minuend subtrahend
    exact ⟨valid, by rw [value, eval_sub, first, second]⟩
  | quotient mentioned _ free found _ dividend =>
    cases found
    obtain ⟨a, ha, b, hb, nonzero, rfl⟩ := value?_div.mp hv
    have constant := D_value_of_free laws.toLawful free hb
    obtain ⟨factor, inverse⟩ := law.div law.one.1 ⟨b, hb, constant⟩ (by rwa [valueOf_eq hb])
    obtain ⟨above, upper⟩ := dividend ha
    obtain ⟨valid, value⟩ := scale_spec law above factor
    refine ⟨valid, ?_⟩
    rw [value, eval_mul, upper, eval_C, inverse, law.one.2, valueOf_eq hb, mul_one_div]
  | @power base y n p mentioned natural _ fits inner =>
    obtain ⟨b, hb, c, hc, power⟩ := value?_pow.mp hv
    rw [Numeral.eq_of_uint64? natural] at hc
    obtain rfl : (n : K) = c := by
      obtain ⟨-, same⟩ := numeral?_exact.mp ((value?_number _).symm.trans hc)
      exact_mod_cast same
    obtain rfl := Option.some.inj ((laws.natural_power b n).symm.trans power)
    obtain ⟨below, value⟩ := inner hb
    obtain ⟨valid, raised⟩ := pow_spec law below (fits trivial)
    exact ⟨valid, by rw [raised, eval_pow, value]⟩

theorem value_of_ofExpr? (read : ofExpr? (symbolicCoefficients simplify) x e = some p)
    (words : inWords (symbolicCoefficients simplify) x e = true) (hv : M.value? e = some v) :
    M.HasPolynomialValue simplify x p v :=
  value_of_readAs laws keeps (readAs_of_ofExpr? read fun _ => words) hv

/-- A polynomial without exponents above one has its coefficient there for a derivative. -/
theorem D_of_linear (h : M.HasPolynomialValue simplify x p v) (small : UpTo 1 p.terms) :
    ∃ a b, M.value? (p.coeff (symbolicCoefficients simplify).toCoefficientRing 1) = some a ∧
      M.value? (p.coeff (symbolicCoefficients simplify).toCoefficientRing 0) = some b ∧
        a * M.ident x + b = v ∧ M.D v = a := by
  have law := symbolicCoefficients_constant laws.exact keeps
  obtain ⟨valid, value⟩ := h
  have degree : (p.image M.valueOf).natDegree ≤ 1 := by
    refine natDegree_le_iff_coeff_eq_zero.mpr fun n above => ?_
    refine coeff_image_of_degree?_le valid law fun k known => ?_
    obtain ⟨ts, c, same⟩ := terms_of_degree? known
    have := small (k, c) (by simp [same])
    exact lt_of_le_of_lt this above
  obtain ⟨first, slope⟩ := isConstant_iff.mp (coeff_mem law valid 1)
  obtain ⟨second, constant⟩ := isConstant_iff.mp (coeff_mem law valid 0)
  rw [eq_X_add_C_of_natDegree_le_one degree, coeff_image law valid, coeff_image law valid] at value
  simp only [eval_add, eval_mul, eval_C, eval_X] at value
  refine ⟨_, _, first, second, value, ?_⟩
  rw [← value, map_add, M.D.leibniz, slope, constant, laws.ident_self]
  simp

/-! ## Polynomials as expressions -/

omit keeps in
theorem value?_variablePower (n : Nat) :
    M.value? (variablePower x n) = some (M.ident x ^ n) := by
  match n with
  | 0 => simp [variablePower]
  | 1 => simp [variablePower]
  | n + 2 =>
    refine value?_pow.mpr ⟨_, value?_ident x, (n + 2 : ℕ), ?_, laws.natural_power _ _⟩
    exact_mod_cast value?_ofInt (M := M) ((n + 2 : ℕ) : ℤ)

omit keeps in
theorem value?_toExpr (h : M.HasPolynomialValue simplify x p v) :
    M.value? (p.toExpr (symbolicCoefficients simplify) x) = some v := by
  obtain ⟨valid, value⟩ := h
  have terms (ts : List (Nat × Expr)) (constants : ∀ t ∈ ts, M.IsConstant t.2) :
      M.values? (ts.map fun t => t.2.times (variablePower x t.1)) =
        some (ts.map fun t => M.valueOf t.2 * M.ident x ^ t.1) := by
    induction ts with
    | nil => rfl
    | cons t ts ih =>
      obtain ⟨here, there⟩ := List.forall_mem_cons.mp constants
      have term := laws.exact.readsNumerals.value?_mul (isConstant_iff.mp here).1
        (value?_variablePower laws t.1)
      exact values?_cons.mpr ⟨_, term, _, ih there, rfl⟩
  refine value?_sum.mpr ⟨_, terms _ fun t member =>
    valid.coefficients t (List.mem_reverse.mp member), ?_⟩
  rw [List.map_reverse, List.sum_reverse, ← value, image, termsImage, ← coe_evalRingHom,
    map_list_sum, List.map_map]
  exact congrArg List.sum (List.map_congr_left fun t _ => by simp)

/-! ## Long division -/

/-- A quotient of polynomials, wherever the leading coefficient of the divisor is not zero. The
remainder over a linear divisor is a constant. -/
theorem value?_polynomialQuotient {n d q r : Expr}
    (found : polynomialQuotient? simplify n d [x] = some (q, r))
    (words : readInWords simplify x n = true ∧ readInWords simplify x d = true)
    (hn : M.value? n = some v) (hd : M.value? d = some w)
    (lead : (M.value? (leadingReciprocal simplify x d)).isSome) :
    ∃ a b, M.value? q = some a ∧ M.value? r = some b ∧ v = a * w + b ∧
      (d.degree? [x] = some 1 → M.D b = 0) := by
  have law := symbolicCoefficients_constant laws.exact keeps
  simp only [polynomialQuotient?, divisionVariable?, Option.bind_eq_bind, Option.bind_some,
    Option.bind_eq_some_iff, Option.some.injEq, Prod.mk.injEq] at found
  obtain ⟨dividend, readN, divisor, readD, ⟨quotient, remainder⟩, divided, rfl, rfl⟩ := found
  obtain ⟨dividendWords, -⟩ := (Bool.and_eq_true _ _).mp words.1
  obtain ⟨divisorWords, degreeWords⟩ := (Bool.and_eq_true _ _).mp words.2
  have valueN := value_of_ofExpr? laws keeps readN dividendWords hn
  have valueD := value_of_ofExpr? laws keeps readD divisorWords hd
  obtain ⟨degree, known, -⟩ := Option.map_eq_some_iff.mp divided
  -- The leading coefficient has a reciprocal, so it is not zero.
  have nonzero :
      M.valueOf (divisor.leading (symbolicCoefficients simplify).toCoefficientRing) ≠ 0 := by
    obtain ⟨i, hi⟩ := Option.isSome_iff_exists.mp lead
    rw [leadingReciprocal, readD, value?_reciprocal] at hi
    obtain ⟨l, hl, nonzero, -⟩ := hi
    exact (valueOf_eq hl).symm ▸ nonzero
  obtain ⟨validQ, validR, whole⟩ := divRem?_spec law valueN.1 valueD.1 nonzero divided
  have hq := value?_toExpr laws (x := x) ⟨validQ, rfl⟩
  have hr := value?_toExpr laws (x := x) ⟨validR, rfl⟩
  refine ⟨_, _, keeps _ _ hq, keeps _ _ hr, ?_, fun linear => ?_⟩
  · rw [← valueN.2, ← valueD.2, whole, eval_add, eval_mul]
  · obtain ⟨-, -, quotient', remainder', -, result, small⟩ :=
      divRem?_endsIn (symbolicCoefficients simplify).toCoefficientRing valueN.1.ascending
        valueD.1.ascending known
    obtain ⟨rfl, rfl⟩ : quotient' = quotient ∧ remainder' = remainder := by
      simpa using result.symm.trans divided
    have below (t : Nat × Expr) (member : t ∈ remainder'.terms) : t.1 < 1 := by
      obtain ⟨ts, c, same⟩ := terms_of_degree? known
      have := upTo_one_of_degree? readD linear degreeWords (degree, c) (by simp [same])
      exact (small t member).trans_le this
    obtain ⟨a, -, ha, -, -, slope⟩ :=
      D_of_linear laws keeps ⟨validR, rfl⟩ fun t member => (below t member).le
    rw [SymbolicAlgebra.Polynomial.coeff, lookup_eq_none fun t member => (below t member).ne] at ha
    rw [slope]
    exact (Option.some.inj (value?_zero.symm.trans ha)).symm

/-- The logarithm of a linear divisor times a constant over its slope. -/
theorem D_constant_over_linear {d r : Expr} {b : K} (linear : d.degree? [x] = some 1)
    (words : readInWords simplify x d = true)
    (read : ofExpr? (symbolicCoefficients simplify) x d = some p) (hd : M.value? d = some w)
    (hr : M.value? r = some b) (constant : M.D b = 0)
    (hv : M.value? (.product [.div r (p.coeff (symbolicCoefficients simplify).toCoefficientRing 1),
      d.logOfAbs]) = some v) : M.D v = b / w := by
  obtain ⟨inside, degreeWords⟩ := (Bool.and_eq_true _ _).mp words
  have polynomial := value_of_ofExpr? laws keeps read inside hd
  obtain ⟨a, -, ha, -, -, slope⟩ :=
    D_of_linear laws keeps polynomial (upTo_one_of_degree? read linear degreeWords)
  obtain ⟨q, hq, l, hl, rfl⟩ := value?_times.mp hv
  obtain ⟨b', hb, a', ha', nonzero, rfl⟩ := value?_div.mp hq
  obtain rfl := Option.some.inj (hr.symm.trans hb)
  obtain rfl := Option.some.inj (ha.symm.trans ha')
  obtain ⟨z, hz, bottom, logarithm⟩ := D_logOfAbs laws hl
  obtain rfl := Option.some.inj (hd.symm.trans hz)
  have known : M.IsConstant (p.coeff (symbolicCoefficients simplify).toCoefficientRing 1) :=
    coeff_mem (symbolicCoefficients_constant laws.exact keeps) polynomial.1 1
  have fixed : M.D (b / a) = 0 := by
    have := (isConstant_iff.mp known).2
    rw [valueOf_eq ha] at this
    exact D_quotient_constants constant this (quotient?_eq_some.mpr ⟨nonzero, rfl⟩)
  rw [M.D.leibniz, fixed, logarithm, slope, smul_eq_mul, smul_zero, add_zero]
  field_simp

end Reading

end DifferentialReading

end SymbolicAlgebra
