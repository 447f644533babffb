import SymbolicAlgebra.Expr.Sign
import SymbolicAlgebra.Product.Coefficient
import SymbolicAlgebra.Proofs.Congruence

/-! Values of exact numerals, and of sums, products, opposites and rationals as they are built. -/
namespace SymbolicAlgebra

namespace Numeral

theorem exists_exact {x : Numeral} (h : x.isExact = true) : ∃ r, x = .exact r := by
  cases x with
  | exact r => exact ⟨r, rfl⟩
  | float _ | nan => cases h

@[simp] theorem isExact_exact (r : Rat) : (exact r).isExact = true := rfl

@[simp] theorem isZero_exact (r : Rat) : (exact r).isZero = true ↔ r = 0 := by simp [isZero]

@[simp] theorem isOne_exact (r : Rat) : (exact r).isOne = true ↔ r = 1 := by simp [isOne]

@[simp] theorem isNegative_exact (r : Rat) : (exact r).isNegative = true ↔ r < 0 :=
  decide_eq_true_iff.trans Rat.num_neg

@[simp] theorem isInteger_intCast (n : Int) : (exact n).isInteger = true := by simp [isInteger]

@[simp] theorem isNaN_exact (r : Rat) : (exact r).isNaN = false := rfl

@[simp] theorem add_exact (r s : Rat) : (exact r).add (exact s) = .exact (r + s) := rfl

@[simp] theorem sub_exact (r s : Rat) : (exact r).sub (exact s) = .exact (r - s) := rfl

@[simp] theorem mul_exact (r s : Rat) : (exact r).mul (exact s) = .exact (r * s) := rfl

@[simp] theorem neg_exact (r : Rat) : (exact r).neg = .exact (-r) := rfl

theorem div_exact {r s : Rat} (h : s ≠ 0) : (exact r).div (exact s) = .exact (r / s) := by
  simp [div, h, lift₂]

theorem isExact_of_integer? {x : Numeral} {n : Int} (h : x.integer? = some n) : x = .exact n := by
  cases x with
  | exact r =>
    simp only [integer?, Option.ite_none_right_eq_some, Option.some.injEq] at h
    rw [← h.2, ← Rat.den_eq_one_iff r |>.mp h.1]
    simp
  | float _ | nan => cases h

section

variable {K : Type*} [Field K]

@[simp] theorem val_exact (r : Rat) : (exact r).val K = r := rfl

@[simp] theorem val_ofInt (n : Int) : (ofInt n).val K = n := by
  simp [ofInt]

@[simp] theorem val_zero : zero.val K = 0 := by simp [zero, ofInt]

@[simp] theorem val_one : one.val K = 1 := by simp [one, ofInt]

end

@[simp] theorem isExact_ofInt (n : Int) : (ofInt n).isExact = true := rfl

@[simp] theorem isExact_zero : zero.isExact = true := rfl

@[simp] theorem isExact_one : one.isExact = true := rfl

end Numeral

namespace Reading

variable {K : Type*} [Field K] {R : Reading K}

/-! ## Builders -/

@[simp] theorem defined_zero : R.Defined .zero := rfl

@[simp] theorem defined_one : R.Defined .one := rfl

@[simp] theorem defined_ofInt (n : Int) : R.Defined (.ofInt n) := rfl

@[simp] theorem val_zero : R.val .zero = 0 := by simp [Expr.zero, Expr.ofInt, Numeral.ofInt]

@[simp] theorem val_one : R.val .one = 1 := by simp [Expr.one, Expr.ofInt, Numeral.ofInt]

@[simp] theorem val_ofInt (n : Int) : R.val (.ofInt n) = n := by simp [Expr.ofInt]

@[simp] theorem val_sum (xs : List Expr) : R.val (.sum xs) = (xs.map R.val).sum := by
  match xs with
  | [] => simp [Expr.sum]
  | [x] => simp [Expr.sum]
  | x :: y :: xs => simp [Expr.sum]

@[simp] theorem defined_sum (xs : List Expr) : R.Defined (.sum xs) ↔ ∀ x ∈ xs, R.Defined x := by
  match xs with
  | [] => simp [Expr.sum]
  | [x] => simp [Expr.sum]
  | x :: y :: xs => simp [Expr.sum]

@[simp] theorem val_product (xs : List Expr) : R.val (.product xs) = (xs.map R.val).prod := by
  match xs with
  | [] => simp [Expr.product]
  | [x] => simp [Expr.product]
  | x :: y :: xs => simp [Expr.product]

@[simp] theorem defined_product (xs : List Expr) :
    R.Defined (.product xs) ↔ ∀ x ∈ xs, R.Defined x := by
  match xs with
  | [] => simp [Expr.product]
  | [x] => simp [Expr.product]
  | x :: y :: xs => simp [Expr.product]

@[simp] theorem val_add (a b : Expr) : R.val (.add a b) = R.val a + R.val b := by simp [Expr.add]

@[simp] theorem defined_add (a b : Expr) : R.Defined (.add a b) ↔ R.Defined a ∧ R.Defined b := by
  simp [Expr.add]

@[simp] theorem val_sub (a b : Expr) : R.val (.sub a b) = R.val a - R.val b := rfl

@[simp] theorem defined_sub (a b : Expr) : R.Defined (.sub a b) ↔ R.Defined a ∧ R.Defined b :=
  defined_node_subtract a b

@[simp] theorem val_mul (a b : Expr) : R.val (.mul a b) = R.val a * R.val b := by simp [Expr.mul]

@[simp] theorem defined_mul (a b : Expr) : R.Defined (.mul a b) ↔ R.Defined a ∧ R.Defined b := by
  simp [Expr.mul]

@[simp] theorem val_div (a b : Expr) : R.val (.div a b) = R.val a / R.val b := rfl

@[simp] theorem defined_div (a b : Expr) :
    R.Defined (.div a b) ↔ R.Defined a ∧ R.Defined b ∧ R.val b ≠ 0 := defined_node_divide a b

@[simp] theorem val_pow (a b : Expr) : R.val (.pow a b) = power (R.val a) (R.val b) := rfl

@[simp] theorem defined_pow (a b : Expr) :
    R.Defined (.pow a b) ↔
      R.Defined a ∧ R.Defined b ∧ ∃ n : ℤ, (n : K) = R.val b ∧ (R.val a = 0 → 0 ≤ n) :=
  defined_node_power a b

theorem ofRat_keeps [CharZero K] (r : Rat) : R.Keeps (.number (.exact r)) (.ofRat r) := by
  intro _
  unfold Expr.ofRat
  split
  · exact ⟨rfl, rfl⟩
  · have nonzero : (r.den : K) ≠ 0 := Nat.cast_ne_zero.mpr r.den_nz
    refine ⟨by simp, ?_⟩
    simp only [val_div, val_ofInt, Int.cast_natCast, val_exact]
    exact (Rat.cast_def r).symm

@[simp] theorem val_ofRat [CharZero K] (r : Rat) : R.val (.ofRat r) = r := (ofRat_keeps r rfl).2

@[simp] theorem defined_ofRat [CharZero K] (r : Rat) : R.Defined (.ofRat r) := (ofRat_keeps r rfl).1

theorem ofNumeral_keeps [CharZero K] (x : Numeral) : R.Keeps (.number x) (.ofNumeral x) := by
  intro h
  obtain ⟨r, rfl⟩ := Numeral.exists_exact h
  exact ofRat_keeps r h

/-! ## Powers -/

@[simp] theorem power_intCast [CharZero K] (x : K) (n : ℤ) : power x (n : K) = x ^ n := by
  have integer : ∃ m : ℤ, (m : K) = n := ⟨n, rfl⟩
  rw [power, dif_pos integer]
  exact congrArg (x ^ ·) (Int.cast_injective integer.choose_spec)

@[simp] theorem power_natCast [CharZero K] (x : K) (n : ℕ) : power x (n : K) = x ^ n := by
  have := power_intCast x (n : ℤ)
  rwa [Int.cast_natCast, zpow_natCast] at this

@[simp] theorem power_one [CharZero K] (x : K) : power x 1 = x := by
  have := power_natCast x 1
  rwa [Nat.cast_one, pow_one] at this

@[simp] theorem power_zero [CharZero K] (x : K) : power x 0 = 1 := by
  have := power_natCast x 0
  rwa [Nat.cast_zero, pow_zero] at this

/-! ## Zero and one -/

theorem val_of_isZero {e : Expr} (h : R.Defined e) (zero : e.isZero = true) : R.val e = 0 := by
  cases e with
  | number x =>
    obtain ⟨r, rfl⟩ := Numeral.exists_exact h
    have : r = 0 := by simpa [Expr.isZero] using zero
    simp [this]
  | complex _ | ident _ | call _ _ | node _ _ => cases zero

theorem val_of_isOne {e : Expr} (h : R.Defined e) (one : e.isOne = true) : R.val e = 1 := by
  cases e with
  | number x =>
    obtain ⟨r, rfl⟩ := Numeral.exists_exact h
    have : r = 1 := by simpa [Expr.isOne] using one
    simp [this]
  | complex _ | ident _ | call _ _ | node _ _ => cases one

theorem isNaN_of_defined {e : Expr} (h : R.Defined e) : e.isNaN = false := by
  cases e with
  | number x =>
    obtain ⟨r, rfl⟩ := Numeral.exists_exact h
    rfl
  | complex _ | ident _ | call _ _ | node _ _ => rfl

theorem defined_filter {p : Expr → Bool} {xs : List Expr} (h : ∀ x ∈ xs, R.Defined x) :
    ∀ x ∈ xs.filter p, R.Defined x := fun x member => h x (List.mem_filter.mp member).1

theorem sum_filter {p : Expr → Bool} {xs : List Expr}
    (zero : ∀ x ∈ xs, p x = false → R.val x = 0) :
    ((xs.filter p).map R.val).sum = (xs.map R.val).sum := by
  induction xs with
  | nil => rfl
  | cons x xs ih =>
    have tail := ih fun y member => zero y (List.mem_cons_of_mem _ member)
    cases kept : p x with
    | true => simp [kept, tail]
    | false => simp [kept, tail, zero x List.mem_cons_self kept]

theorem prod_filter {p : Expr → Bool} {xs : List Expr}
    (one : ∀ x ∈ xs, p x = false → R.val x = 1) :
    ((xs.filter p).map R.val).prod = (xs.map R.val).prod := by
  induction xs with
  | nil => rfl
  | cons x xs ih =>
    have tail := ih fun y member => one y (List.mem_cons_of_mem _ member)
    cases kept : p x with
    | true => simp [kept, tail]
    | false => simp [kept, tail, one x List.mem_cons_self kept]

/-- A list of factors is its members with a property times the others. -/
theorem prod_filter_mul_prod_filter_not (p : Expr → Bool) (xs : List Expr) :
    ((xs.filter p).map R.val).prod * ((xs.filter fun x => !p x).map R.val).prod =
      (xs.map R.val).prod := by
  induction xs with
  | nil => simp
  | cons x xs ih =>
    cases kept : p x <;> simp only [List.filter_cons, kept, Bool.not_true, Bool.not_false,
      Bool.false_eq_true, ↓reduceIte, List.map_cons, List.prod_cons, ← ih] <;> ring

theorem sum_filter_add_sum_filter_not (p : Expr → Bool) (xs : List Expr) :
    ((xs.filter p).map R.val).sum + ((xs.filter fun x => !p x).map R.val).sum =
      (xs.map R.val).sum := by
  induction xs with
  | nil => simp
  | cons x xs ih =>
    cases kept : p x <;> simp only [List.filter_cons, kept, Bool.not_true, Bool.not_false,
      Bool.false_eq_true, ↓reduceIte, List.map_cons, List.sum_cons, ← ih] <;> ring

/-! ## Addends and factors -/

@[simp] theorem sum_addends (e : Expr) : (e.addends.map R.val).sum = R.val e := by
  unfold Expr.addends
  split <;> simp

@[simp] theorem defined_addends (e : Expr) : (∀ x ∈ e.addends, R.Defined x) ↔ R.Defined e := by
  unfold Expr.addends
  split <;> simp

@[simp] theorem prod_factors (e : Expr) : (e.factors.map R.val).prod = R.val e := by
  unfold Expr.factors
  split <;> simp

@[simp] theorem defined_factors (e : Expr) : (∀ x ∈ e.factors, R.Defined x) ↔ R.Defined e := by
  unfold Expr.factors
  split <;> simp

theorem prod_drop_ones {xs : List Expr} (h : ∀ x ∈ xs, R.Defined x) :
    ((xs.filter fun x => !x.isOne).map R.val).prod = (xs.map R.val).prod :=
  prod_filter fun x member dropped => val_of_isOne (h x member) (by simpa using dropped)

theorem defined_times {a b : Expr} (ha : R.Defined a) (hb : R.Defined b) :
    R.Defined (a.times b) := by
  rw [Expr.times, defined_product]
  refine defined_filter fun x member => ?_
  rcases List.mem_append.mp member with left | right
  · exact (defined_factors a).mpr ha x left
  · exact (defined_factors b).mpr hb x right

theorem val_times {a b : Expr} (ha : R.Defined a) (hb : R.Defined b) :
    R.val (a.times b) = R.val a * R.val b := by
  rw [Expr.times, val_product, prod_drop_ones]
  · simp
  · intro x member
    rcases List.mem_append.mp member with left | right
    · exact (defined_factors a).mpr ha x left
    · exact (defined_factors b).mpr hb x right

/-! ## Signs -/

theorem negateFactors_keeps {xs : List Expr} (h : ∀ x ∈ xs, R.Defined x) :
    (∀ x ∈ Expr.negateFactors xs, R.Defined x) ∧
      ((Expr.negateFactors xs).map R.val).prod = -(xs.map R.val).prod := by
  unfold Expr.negateFactors
  split
  · rename_i x rest
    obtain ⟨r, rfl⟩ := Numeral.exists_exact (h _ List.mem_cons_self)
    have tail := fun y member => h y (List.mem_cons_of_mem _ member)
    split
    · rename_i one
      have negative : r = -1 := by
        have : -r = 1 := by simpa using one
        rw [← this, neg_neg]
      exact ⟨tail, by simp [negative]⟩
    · refine ⟨?_, by simp⟩
      simpa using tail
  · refine ⟨?_, by simp⟩
    simpa using h

theorem negate_spec {e : Expr} (h : R.Defined e) :
    R.Defined e.negate ∧ R.val e.negate = -R.val e := by
  induction e with
  | number x =>
    obtain ⟨r, rfl⟩ := Numeral.exists_exact h
    exact ⟨rfl, by simp [Expr.negate]⟩
  | complex z =>
    obtain ⟨re, im⟩ := z
    obtain ⟨unit, real, imaginary⟩ := h
    obtain ⟨r, rfl⟩ := Numeral.exists_exact real
    obtain ⟨s, rfl⟩ := Numeral.exists_exact imaginary
    refine ⟨⟨unit, rfl, rfl⟩, ?_⟩
    simp only [Expr.negate, ComplexNumeral.neg, val_complex, Numeral.neg_exact, Numeral.val_exact,
      Rat.cast_neg]
    ring
  | ident name => simp [Expr.negate]
  | call f xs _ => simp [Expr.negate, -defined_call, -val_call, h]
  | node op xs ih =>
    unfold Expr.negate
    split
    case h_1 heq => cases heq
    case h_2 heq => cases heq
    case h_3 factors heq =>
      cases heq
      have spec := negateFactors_keeps ((defined_node_multiply xs).mp h)
      simpa using spec
    case h_4 n d heq =>
      cases heq
      obtain ⟨hn, hd, nonzero⟩ := (defined_node_divide n d).mp h
      obtain ⟨defined, opposite⟩ := ih n (by simp) hn
      simp [defined, opposite, hd, nonzero, neg_div]
    case h_5 => simp [h]

theorem defined_negate {e : Expr} (h : R.Defined e) : R.Defined e.negate :=
  (negate_spec h).1

theorem val_negate {e : Expr} (h : R.Defined e) : R.val e.negate = -R.val e :=
  (negate_spec h).2

theorem unsigned_spec {e : Expr} (h : R.Defined e) :
    R.Defined e.unsigned ∧ R.val e.unsigned = if e.isNegative then -R.val e else R.val e := by
  induction e with
  | number x =>
    by_cases negative : (Expr.number x).isNegative
    · simp [Expr.unsigned, negative, defined_negate h, val_negate h, -val_number]
    · simp [Expr.unsigned, negative, -val_number, h]
  | complex z => simp [Expr.unsigned, Expr.isNegative, h]
  | ident name => simp [Expr.unsigned, Expr.isNegative]
  | call f xs _ => simp only [Expr.unsigned, Expr.isNegative, Bool.false_eq_true, ↓reduceIte, h,
      and_self]
  | node op xs ih =>
    unfold Expr.unsigned
    split
    case h_1 n d heq =>
      cases heq
      obtain ⟨hn, hd, nonzero⟩ := (defined_node_divide n d).mp h
      obtain ⟨defined, value⟩ := ih n (by simp) hn
      by_cases negative : n.isNegative
      · simp [Expr.isNegative, negative, defined, value, hd, nonzero, neg_div]
      · simp [Expr.isNegative, negative, hn, hd, nonzero]
    case h_2 =>
      split
      · exact ⟨defined_negate h, val_negate h⟩
      · exact ⟨h, rfl⟩

end Reading

end SymbolicAlgebra
