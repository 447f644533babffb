import SymbolicAlgebra.Polynomial.Degree
import SymbolicAlgebra.Proofs.EuclideanDivision
import SymbolicAlgebra.Proofs.Identifiers
import SymbolicAlgebra.Proofs.Parts

/-! Degrees that a tree shows. What is read as a polynomial has a degree if its exponents fit a signed
word, and no exponent is above the degree if that was worked out without leaving the word. -/
namespace SymbolicAlgebra

namespace Expr

/-- A natural exponent of 64 bits also fits a signed word. -/
def hasSignedExponent : Expr → Bool
  | .node .power [_, .number x] => x.uint64?.isNone || x.int64?.isSome
  | _ => true

/-! ## Variables -/

theorem countsAsVariable_singleton (x name : String) : countsAsVariable [x] name = (name == x) := by
  rw [countsAsVariable, List.isEmpty_cons, if_neg Bool.false_ne_true, List.contains_cons,
    List.contains_nil, Bool.or_false]

theorem anyHasVariable_eq (symbols : List String) (xs : List Expr) :
    anyHasVariable symbols xs = xs.any (hasVariable symbols) := by
  induction xs with
  | nil => rfl
  | cons x xs ih => rw [anyHasVariable, ih, List.any_cons]

/-- A single symbol is a variable wherever it occurs. -/
theorem hasVariable_singleton (x : String) (e : Expr) : e.hasVariable [x] = e.mentions x := by
  have operands {xs : List Expr} (ih : ∀ y ∈ xs, y.hasVariable [x] = y.mentions x) :
      anyHasVariable [x] xs = xs.any (mentions x) := by
    rw [anyHasVariable_eq, Bool.eq_iff_iff, List.any_eq_true, List.any_eq_true]
    exact exists_congr fun y => and_congr_right fun member => by rw [ih y member]
  induction e with
  | number _ | complex _ => rfl
  | ident name => exact countsAsVariable_singleton x name
  | call f xs ih => rw [hasVariable, operands ih, mentions_call]
  | node op xs ih => rw [hasVariable, operands ih, mentions_node]

/-! ## Degrees in words -/

/-- One more than the largest signed word. -/
def signedLimit : Int := 9223372036854775808

mutual

/-- Whether the degrees stay in the signed word while the degree of a tree is worked out, as far as it
is worked out. -/
def degreeInWords (symbols : List String) : Expr → Bool
  | .node op xs =>
    if !(node op xs).hasVariable symbols then true
    else
      match op, xs with
      | .add, terms => degreesInWords symbols terms
      | .multiply, factors => sumOfDegreesInWords symbols 0 factors
      | .subtract, [a, b] =>
        degreeInWords symbols a && ((totalDegree? symbols a).isNone || degreeInWords symbols b)
      | .divide, [a, b] => b.hasVariable symbols || degreeInWords symbols a
      | .power, [base, .number x] =>
        match x.int64? with
        | some (.ofNat n) =>
          degreeInWords symbols base &&
            (totalDegree? symbols base).all fun d => decide (d * n < signedLimit)
        | _ => true
      | _, _ => true
  | _ => true

def degreesInWords (symbols : List String) : List Expr → Bool
  | [] => true
  | x :: xs =>
    degreeInWords symbols x && ((totalDegree? symbols x).isNone || degreesInWords symbols xs)

/-- The degrees are added from the left. -/
def sumOfDegreesInWords (symbols : List String) (acc : Int) : List Expr → Bool
  | [] => true
  | x :: xs =>
    degreeInWords symbols x && (totalDegree? symbols x).all fun d =>
      decide (acc + d < signedLimit) && sumOfDegreesInWords symbols (acc + d) xs

end

end Expr

theorem signedWord_natCast {n : Nat} (h : (n : ℤ) < Expr.signedLimit) : signedWord n = n := by
  unfold Expr.signedLimit at h
  exact Int.bmod_eq_of_le_mul_two (by omega) (by omega)

namespace Numeral

theorem int64?_of_uint64? {x : Numeral} {n : Nat} (h : x.uint64? = some n)
    (signed : (x.uint64?.isNone || x.int64?.isSome) = true) : x.int64? = some (n : Int) := by
  rw [h, Option.isNone_some, Bool.false_or] at signed
  obtain ⟨k, found⟩ := Option.isSome_iff_exists.mp signed
  obtain ⟨integer, -⟩ := Option.filter_eq_some_iff.mp found
  have whole := (isExact_of_integer? integer).symm.trans (eq_of_uint64? h)
  rw [exact.injEq] at whole
  rw [found, show k = n by exact_mod_cast whole]

end Numeral

namespace Polynomial

variable {C : Type} {R : CoefficientRing C} {E : ExprCoefficients C} {x : String}

/-! ## Exponents of what is worked out -/

theorem UpTo.mono {m n : Nat} (le : m ≤ n) {ts : List (Nat × C)} (h : UpTo m ts) : UpTo n ts :=
  fun t member => (h t member).trans le

theorem zero_upTo (k : Nat) : UpTo k (zero : Polynomial C).terms := List.forall_mem_nil _

theorem scale_eachExponent {Q : Nat → Prop} {p : Polynomial C} (h : EachExponent Q p.terms)
    (c : C) : EachExponent Q (p.scale R c).terms := by
  intro t member
  obtain ⟨u, inside, rfl⟩ := List.mem_map.mp (List.mem_filter.mp member).1
  exact h u inside

theorem powerOnto_upTo (n : Nat) {m k : Nat} {acc base : Polynomial C} (ha : UpTo m acc.terms)
    (hb : UpTo k base.terms) : UpTo (m + k * n) (powerOnto (mul R) acc base n).terms := by
  fun_induction powerOnto (mul R) acc base n generalizing m k with
  | case1 => exact ha
  | case2 acc base n positive ih =>
    have next : UpTo (m + k * (n % 2)) (if n % 2 = 1 then mul R acc base else acc).terms := by
      split
      · rename_i odd
        rw [odd, mul_one]
        exact mul_upTo ha hb
      · exact ha.mono (Nat.le_add_right _ _)
    have total : m + k * n = m + k * (n % 2) + (k + k) * (n / 2) := by
      conv_lhs => rw [← Nat.mod_add_div n 2]
      ring
    rw [total]
    exact ih next (mul_upTo hb hb)

theorem pow_upTo {k : Nat} {p : Polynomial C} (h : UpTo k p.terms) (n : Nat) :
    UpTo (k * n) (p.pow R n).terms := by
  have onto := powerOnto_upTo (R := R) n (monomial_upTo (R := R) R.one 0) h
  rwa [zero_add] at onto

/-! ## Degrees of what is read -/

theorem totalDegree?_of_free {e : Expr} (free : e.mentions x = false) :
    e.totalDegree? [x] = some 0 := by
  have absent := (Expr.hasVariable_singleton x e).trans free
  cases e with
  | number _ | complex _ | call _ _ =>
    simp only [Expr.totalDegree?, absent, Bool.false_eq_true, ↓reduceIte]
  | ident name =>
    rw [Expr.totalDegree?, Expr.countsAsVariable_singleton, if_neg (by simpa using free)]
  | node op xs =>
    unfold Expr.totalDegree?
    rw [absent, Bool.not_false, if_pos rfl]

theorem exists_maxDegree? {xs : List Expr} (each : ∀ y ∈ xs, ∃ d, y.totalDegree? [x] = some d) :
    ∃ d, Expr.maxDegree? [x] xs = some d := by
  induction xs with
  | nil => exact ⟨0, rfl⟩
  | cons y ys ih =>
    obtain ⟨⟨k, first⟩, there⟩ := List.forall_mem_cons.mp each
    obtain ⟨d, rest⟩ := ih there
    exact ⟨max k d, by rw [Expr.maxDegree?, first, rest]⟩

theorem exists_sumDegree? {xs : List Expr} (each : ∀ y ∈ xs, ∃ d, y.totalDegree? [x] = some d) :
    ∃ d, Expr.sumDegree? [x] xs = some d := by
  induction xs with
  | nil => exact ⟨0, rfl⟩
  | cons y ys ih =>
    obtain ⟨⟨k, first⟩, there⟩ := List.forall_mem_cons.mp each
    obtain ⟨d, rest⟩ := ih there
    exact ⟨signedWord (k + d), by rw [Expr.sumDegree?, first, rest]⟩

theorem hasVariable_of_mentions {op : Operator} {xs : List Expr}
    (h : (Expr.node op xs).mentions x = true) : (!(Expr.node op xs).hasVariable [x]) = false := by
  rw [Expr.hasVariable_singleton, h, Bool.not_true]

/-- What is read as a polynomial has a degree. -/
theorem ReadAs.exists_totalDegree? {words : Prop} {e : Expr} {p : Polynomial C}
    (h : ReadAs E x words e p) (signed : e.AllParts fun part => part.hasSignedExponent = true) :
    ∃ d, e.totalDegree? [x] = some d := by
  induction h with
  | constant free => exact ⟨0, totalDegree?_of_free free⟩
  | unknown => exact ⟨_, rfl⟩
  | sum mentioned _ _ ih =>
    rw [Expr.totalDegree?, hasVariable_of_mentions mentioned, if_neg Bool.false_ne_true]
    exact exists_maxDegree? fun y member => ih y member (signed.operands y member)
  | product mentioned _ _ _ ih =>
    rw [Expr.totalDegree?, hasVariable_of_mentions mentioned, if_neg Bool.false_ne_true]
    exact exists_sumDegree? fun y member => ih y member (signed.operands y member)
  | difference mentioned _ _ left right =>
    obtain ⟨m, minuend⟩ := left (signed.operands _ (by simp))
    obtain ⟨n, subtrahend⟩ := right (signed.operands _ (by simp))
    rw [Expr.totalDegree?, hasVariable_of_mentions mentioned, if_neg Bool.false_ne_true]
    exact ⟨max m n, by rw [minuend, subtrahend]⟩
  | quotient mentioned _ free _ _ dividend =>
    obtain ⟨m, degree⟩ := dividend (signed.operands _ (by simp))
    rw [Expr.totalDegree?, hasVariable_of_mentions mentioned, if_neg Bool.false_ne_true]
    rw [Expr.hasVariable_singleton, free, if_neg Bool.false_ne_true]
    exact ⟨m, degree⟩
  | @power _ _ n _ mentioned natural _ _ inner =>
    obtain ⟨m, degree⟩ := inner (signed.operands _ (by simp))
    rw [Expr.totalDegree?, hasVariable_of_mentions mentioned, if_neg Bool.false_ne_true]
    exact ⟨signedWord (m * n), by rw [degree, Numeral.int64?_of_uint64? natural signed.here]⟩

theorem foldl_add_upTo {xs : List Expr} {q : Expr → Polynomial C}
    (each : ∀ y ∈ xs, ∀ {d}, y.totalDegree? [x] = some d → y.degreeInWords [x] = true →
      ∃ k : Nat, d = k ∧ UpTo k (q y).terms) {m : Nat} {d : Int} {acc : Polynomial C}
    (ha : UpTo m acc.terms) (degree : Expr.maxDegree? [x] xs = some d)
    (words : Expr.degreesInWords [x] xs = true) :
    ∃ k : Nat, d = k ∧ UpTo (max m k) (xs.foldl (fun acc y => acc.add R (q y)) acc).terms := by
  induction xs generalizing acc m d with
  | nil =>
    cases degree
    exact ⟨0, rfl, ha.mono (le_max_left _ _)⟩
  | cons y ys ih =>
    obtain ⟨here, there⟩ := List.forall_mem_cons.mp each
    rw [Expr.maxDegree?] at degree
    split at degree
    · rename_i _ _ first rest
      cases degree
      rw [Expr.degreesInWords, first, Option.isNone_some, Bool.false_or, Bool.and_eq_true] at words
      obtain ⟨k, rfl, small⟩ := here first words.1
      obtain ⟨l, rfl, total⟩ := ih there
        (add_eachExponent (R := R) (ha.mono (le_max_left m k)) (small.mono (le_max_right m k))) rest
        words.2
      exact ⟨max k l, (Nat.cast_max k l).symm, by rwa [max_assoc] at total⟩
    · cases degree

theorem foldl_mul_upTo {xs : List Expr} {q : Expr → Polynomial C}
    (each : ∀ y ∈ xs, ∀ {d}, y.totalDegree? [x] = some d → y.degreeInWords [x] = true →
      ∃ k : Nat, d = k ∧ UpTo k (q y).terms) {m : Nat} {d : Int} {acc : Polynomial C}
    (inside : (m : ℤ) < Expr.signedLimit) (ha : UpTo m acc.terms)
    (degree : Expr.sumDegree? [x] xs = some d)
    (words : Expr.sumOfDegreesInWords [x] m xs = true) :
    ∃ k : Nat, d = k ∧ ((m + k : ℕ) : ℤ) < Expr.signedLimit ∧
      UpTo (m + k) (xs.foldl (fun acc y => acc.mul R (q y)) acc).terms := by
  induction xs generalizing acc m d with
  | nil =>
    cases degree
    exact ⟨0, rfl, inside, ha⟩
  | cons y ys ih =>
    obtain ⟨here, there⟩ := List.forall_mem_cons.mp each
    rw [Expr.sumDegree?] at degree
    split at degree
    · rename_i _ _ first rest
      cases degree
      rw [Expr.sumOfDegreesInWords, first, Option.all_some, Bool.and_eq_true, Bool.and_eq_true,
        decide_eq_true_eq] at words
      obtain ⟨k, rfl, small⟩ := here first words.1
      rw [← Nat.cast_add] at words
      obtain ⟨l, rfl, below, total⟩ :=
        ih there words.2.1 (mul_upTo (R := R) ha small) rest words.2.2
      rw [Nat.add_assoc] at below total
      refine ⟨k + l, ?_, below, total⟩
      rw [← Nat.cast_add]
      exact signedWord_natCast ((Int.ofNat_le.mpr (Nat.le_add_left _ m)).trans_lt below)
    · cases degree

/-- No exponent is above the degree of the tree, if that is worked out in words. -/
theorem ReadAs.upTo_totalDegree {words : Prop} {e : Expr} {p : Polynomial C}
    (h : ReadAs E x words e p) {d : Int} (degree : e.totalDegree? [x] = some d)
    (inside : e.degreeInWords [x] = true) : ∃ k : Nat, d = k ∧ UpTo k p.terms := by
  induction h generalizing d with
  | constant free =>
    rw [totalDegree?_of_free free] at degree
    cases degree
    exact ⟨0, rfl, monomial_upTo _ 0⟩
  | unknown =>
    rw [Expr.totalDegree?, Expr.countsAsVariable_singleton, beq_self_eq_true, if_pos rfl] at degree
    cases degree
    exact ⟨1, rfl, monomial_upTo _ 1⟩
  | sum mentioned q _ ih =>
    rw [Expr.totalDegree?, hasVariable_of_mentions mentioned, if_neg Bool.false_ne_true] at degree
    rw [Expr.degreeInWords, hasVariable_of_mentions mentioned, if_neg Bool.false_ne_true] at inside
    obtain ⟨k, same, total⟩ := foldl_add_upTo (R := E.toCoefficientRing)
      (fun y member => ih y member) (zero_upTo 0) degree inside
    exact ⟨k, same, by rwa [Nat.zero_max] at total⟩
  | product mentioned q _ _ ih =>
    rw [Expr.totalDegree?, hasVariable_of_mentions mentioned, if_neg Bool.false_ne_true] at degree
    rw [Expr.degreeInWords, hasVariable_of_mentions mentioned, if_neg Bool.false_ne_true] at inside
    obtain ⟨k, same, -, total⟩ := foldl_mul_upTo (R := E.toCoefficientRing)
      (fun y member => ih y member) (by decide) (monomial_upTo E.one 0) degree inside
    exact ⟨k, same, by rwa [Nat.zero_add] at total⟩
  | difference mentioned _ _ left right =>
    rw [Expr.totalDegree?, hasVariable_of_mentions mentioned, if_neg Bool.false_ne_true] at degree
    unfold Expr.degreeInWords at inside
    rw [hasVariable_of_mentions mentioned, if_neg Bool.false_ne_true] at inside
    split at degree
    · rename_i _ _ minuend subtrahend
      cases degree
      simp only [minuend, Option.isNone_some, Bool.false_or, Bool.and_eq_true] at inside
      obtain ⟨m, rfl, upper⟩ := left minuend inside.1
      obtain ⟨n, rfl, lower⟩ := right subtrahend inside.2
      exact ⟨max m n, (Nat.cast_max m n).symm,
        sub_eachExponent (upper.mono (le_max_left _ _)) (lower.mono (le_max_right _ _))⟩
    · cases degree
  | quotient mentioned _ free _ _ dividend =>
    rw [Expr.totalDegree?, hasVariable_of_mentions mentioned, if_neg Bool.false_ne_true] at degree
    rw [Expr.degreeInWords, hasVariable_of_mentions mentioned, if_neg Bool.false_ne_true] at inside
    rw [Expr.hasVariable_singleton, free, if_neg Bool.false_ne_true] at degree
    rw [Expr.hasVariable_singleton, free, Bool.false_or] at inside
    obtain ⟨k, same, small⟩ := dividend degree inside
    exact ⟨k, same, scale_eachExponent small _⟩
  | @power base y n p mentioned natural _ _ inner =>
    rw [Expr.totalDegree?, hasVariable_of_mentions mentioned, if_neg Bool.false_ne_true] at degree
    unfold Expr.degreeInWords at inside
    rw [hasVariable_of_mentions mentioned, if_neg Bool.false_ne_true] at inside
    split at degree
    · rename_i m _ exponent base
      cases degree
      simp only [exponent, base, Option.all_some, Bool.and_eq_true, decide_eq_true_eq] at inside
      obtain ⟨integer, -⟩ := Option.filter_eq_some_iff.mp exponent
      have whole := (Numeral.isExact_of_integer? integer).symm.trans (Numeral.eq_of_uint64? natural)
      rw [Numeral.exact.injEq] at whole
      have same : Int.ofNat m = (n : ℤ) := by exact_mod_cast whole
      obtain rfl := Int.ofNat.inj same
      obtain ⟨k, rfl, small⟩ := inner base inside.1
      have below := inside.2
      rw [← Nat.cast_mul] at below
      refine ⟨k * m, ?_, pow_upTo small m⟩
      rw [← Nat.cast_mul]
      exact signedWord_natCast below
    · cases degree

/-- A tree whose exponents fit a signed word has a degree, and no exponent is above it. -/
theorem degree?_upTo {words : Prop} {e : Expr} {p : Polynomial C} (h : ReadAs E x words e p)
    (signed : e.AllParts fun part => part.hasSignedExponent = true)
    (inside : e.degreeInWords [x] = true) (zero : e.isZero = true → p.terms = []) :
    ∃ d, e.degree? [x] = some d ∧ ∀ t ∈ p.terms, (t.1 : ℤ) ≤ d := by
  obtain ⟨d, degree⟩ := h.exists_totalDegree? signed
  obtain ⟨k, rfl, small⟩ := h.upTo_totalDegree degree inside
  rw [Expr.degree?]
  split
  · rename_i none
    exact ⟨-1, rfl, by simp [zero none]⟩
  · exact ⟨k, degree, fun t member => Int.ofNat_le.mpr (small t member)⟩

/-- A tree of degree one is read as a polynomial without higher exponents. -/
theorem upTo_one_of_degree? {e : Expr} {p : Polynomial C} (read : ofExpr? E x e = some p)
    (linear : e.degree? [x] = some 1) (inside : e.degreeInWords [x] = true) : UpTo 1 p.terms := by
  unfold Expr.degree? at linear
  split at linear
  · cases linear
  · have tree : ReadAs E x False e p := readAs_of_ofExpr? read False.elim
    obtain ⟨k, same, small⟩ := tree.upTo_totalDegree linear inside
    obtain rfl : k = 1 := by exact_mod_cast same.symm
    exact small

/-- No exponent leaves the word while an expression is read as a polynomial with expressions for
coefficients, and no degree the signed word while its degree is worked out. -/
def readInWords (simplify : Expr → Expr) (unknown : String) (e : Expr) : Bool :=
  inWords (symbolicCoefficients simplify) unknown e && e.degreeInWords [unknown]

end Polynomial

end SymbolicAlgebra
