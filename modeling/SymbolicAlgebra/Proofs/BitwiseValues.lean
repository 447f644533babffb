import Mathlib.Data.Int.Bitwise
import SymbolicAlgebra.Proofs.Trimming

/-! Bitwise nodes and shifts as operations on integers in two's complement of unlimited width, and
the rules for repeated, paired and absorbing operands, which keep their values. -/
namespace SymbolicAlgebra

/-! ## The bits of integers -/

theorem eq_of_testBit {m n : ℤ} (same : ∀ k, m.testBit k = n.testBit k) : m = n := by
  -- Far up, the bits of an integer are its sign.
  have signs (a b : ℕ) : ¬∀ k, a.testBit k = !b.testBit k := by
    intro opposite
    have far := opposite (a + b)
    have ha : a < 2 ^ (a + b) := Nat.lt_of_lt_of_le Nat.lt_two_pow_self (by gcongr <;> omega)
    have hb : b < 2 ^ (a + b) := Nat.lt_of_lt_of_le Nat.lt_two_pow_self (by gcongr <;> omega)
    rw [Nat.testBit_lt_two_pow ha, Nat.testBit_lt_two_pow hb] at far
    cases far
  match m, n with
  | .ofNat a, .ofNat b => exact congrArg Int.ofNat (Nat.eq_of_testBit_eq same)
  | .negSucc a, .negSucc b =>
    exact congrArg Int.negSucc (Nat.eq_of_testBit_eq fun k => Bool.not_inj (same k))
  | .ofNat a, .negSucc b => exact absurd same (signs a b)
  | .negSucc a, .ofNat b => exact absurd (fun k => (same k).symm) (signs b a)

instance commutative_land : Std.Commutative Int.land :=
  ⟨fun a b => eq_of_testBit fun k => by simp only [Int.testBit_land, Bool.and_comm]⟩

instance associative_land : Std.Associative Int.land :=
  ⟨fun a b c => eq_of_testBit fun k => by simp only [Int.testBit_land, Bool.and_assoc]⟩

instance idempotent_land : Std.IdempotentOp Int.land :=
  ⟨fun a => eq_of_testBit fun k => by simp only [Int.testBit_land, Bool.and_self]⟩

instance commutative_lor : Std.Commutative Int.lor :=
  ⟨fun a b => eq_of_testBit fun k => by simp only [Int.testBit_lor, Bool.or_comm]⟩

instance associative_lor : Std.Associative Int.lor :=
  ⟨fun a b c => eq_of_testBit fun k => by simp only [Int.testBit_lor, Bool.or_assoc]⟩

instance idempotent_lor : Std.IdempotentOp Int.lor :=
  ⟨fun a => eq_of_testBit fun k => by simp only [Int.testBit_lor, Bool.or_self]⟩

instance commutative_xor : Std.Commutative Int.xor :=
  ⟨fun a b => eq_of_testBit fun k => by simp only [Int.testBit_lxor, Bool.xor_comm]⟩

instance associative_xor : Std.Associative Int.xor :=
  ⟨fun a b c => eq_of_testBit fun k => by simp only [Int.testBit_lxor, Bool.xor_assoc]⟩

theorem testBit_zero (k : ℕ) : Int.testBit 0 k = false := Nat.zero_testBit k

theorem testBit_neg_one (k : ℕ) : Int.testBit (-1) k = true :=
  congrArg Bool.not (Nat.zero_testBit k)

theorem land_neg_one (n : ℤ) : n.land (-1) = n :=
  eq_of_testBit fun k => by rw [Int.testBit_land, testBit_neg_one, Bool.and_true]

theorem zero_land (n : ℤ) : Int.land 0 n = 0 :=
  eq_of_testBit fun k => by rw [Int.testBit_land, testBit_zero, Bool.false_and]

theorem zero_lor (n : ℤ) : Int.lor 0 n = n :=
  eq_of_testBit fun k => by rw [Int.testBit_lor, testBit_zero, Bool.false_or]

theorem zero_xor (n : ℤ) : Int.xor 0 n = n :=
  eq_of_testBit fun k => by rw [Int.testBit_lxor, testBit_zero, Bool.false_xor]

theorem xor_self (n : ℤ) : Int.xor n n = 0 :=
  eq_of_testBit fun k => by rw [Int.testBit_lxor, testBit_zero, Bool.xor_self]

/-! ## Operands that may go -/

section Operands

variable {op : ℤ → ℤ → ℤ} {unit : ℤ} (value : Expr → ℤ)

/-- A neutral operand may go. -/
theorem foldr_filter_isZero (neutral : ∀ n, op 0 n = n) {xs : List Expr}
    (zero : ∀ x ∈ xs, x.isZero = true → value x = 0) :
    ((xs.filter fun x => !x.isZero).map value).foldr op unit = (xs.map value).foldr op unit := by
  induction xs with
  | nil => rfl
  | cons x xs ih =>
    have tail := ih fun y member => zero y (List.mem_cons_of_mem x member)
    cases dropped : x.isZero with
    | true => simp [dropped, tail, zero x List.mem_cons_self dropped, neutral]
    | false => simp [dropped, tail]

theorem foldr_filter_ne [Std.Commutative op] [Std.Associative op] [Std.IdempotentOp op] (x : Expr)
    (xs : List Expr) :
    op (value x) (((xs.filter (· != x)).map value).foldr op unit) =
      op (value x) ((xs.map value).foldr op unit) := by
  have assoc (a b c : ℤ) : op (op a b) c = op a (op b c) := Std.Associative.assoc a b c
  have comm (a b : ℤ) : op a b = op b a := Std.Commutative.comm a b
  have idem (a : ℤ) : op a a = a := Std.IdempotentOp.idempotent a
  induction xs with
  | nil => rfl
  | cons y ys ih =>
    by_cases same : y = x
    · simp only [List.filter_cons, same, bne_self_eq_false, Bool.false_eq_true, ↓reduceIte,
        List.map_cons, List.foldr_cons]
      rw [ih, ← assoc, idem]
    · simp only [List.filter_cons, bne_iff_ne.mpr same, ↓reduceIte, List.map_cons, List.foldr_cons]
      rw [← assoc, comm (value x), assoc, ih, ← assoc, comm (value y), assoc]

/-- Where an operand counts once only, its repetitions may go. -/
theorem foldr_dropRepeats [Std.Commutative op] [Std.Associative op] [Std.IdempotentOp op]
    (xs : List Expr) :
    ((dropRepeats xs).map value).foldr op unit = (xs.map value).foldr op unit := by
  induction xs with
  | nil => rfl
  | cons x xs ih =>
    have once : op (value x) ((((dropRepeats xs).filter (· != x)).map value).foldr op unit) =
        op (value x) (((dropRepeats xs).map value).foldr op unit) :=
      foldr_filter_ne value x (dropRepeats xs)
    rw [dropRepeats, List.map_cons, List.foldr_cons, once, ih, List.map_cons, List.foldr_cons]

/-- Where two equal operands make nothing, they may go. -/
theorem foldr_dropPairs [Std.Commutative op] [Std.Associative op] (neutral : ∀ n, op 0 n = n)
    (self : ∀ n, op n n = 0) (kept xs : List Expr) :
    ((dropPairs kept xs).map value).foldr op unit =
      ((kept ++ xs).map value).foldr op unit := by
  have assoc (a b c : ℤ) : op (op a b) c = op a (op b c) := Std.Associative.assoc a b c
  induction xs generalizing kept with
  | nil => rw [dropPairs, List.append_nil]
  | cons x xs ih =>
    rw [dropPairs]
    split
    case isTrue member =>
      have moved : (kept ++ x :: xs).Perm (x :: x :: (kept.erase x ++ xs)) :=
        List.perm_middle.trans (((List.perm_cons_erase member).append_right xs).cons x)
      rw [ih, (moved.map value).foldr_op_eq, List.map_cons, List.map_cons, List.foldr_cons,
        List.foldr_cons, ← assoc, self, neutral]
    case isFalse => rw [ih, List.append_assoc, List.singleton_append]

end Operands

theorem dropRepeats_subset (xs : List Expr) : dropRepeats xs ⊆ xs := by
  induction xs with
  | nil => exact List.nil_subset _
  | cons x xs ih =>
    exact List.cons_subset_cons x (List.Subset.trans (List.filter_subset_self _) ih)

theorem mem_of_mem_dropPairs {kept xs : List Expr} {y : Expr} (h : y ∈ dropPairs kept xs) :
    y ∈ kept ∨ y ∈ xs := by
  induction xs generalizing kept with
  | nil => exact .inl h
  | cons x xs ih =>
    rw [dropPairs] at h
    split at h
    · exact (ih h).imp List.mem_of_mem_erase (List.mem_cons_of_mem x)
    · rcases ih h with before | later
      · rcases List.mem_append.mp before with old | new
        · exact .inl old
        · exact .inr (List.mem_cons.mpr (.inl (List.mem_singleton.mp new)))
      · exact .inr (List.mem_cons_of_mem x later)

/-! ## Bitwise operators on integers -/

namespace Operator

/-- A bitwise operator on integers in two's complement. -/
def onBits? : Operator → Option (List ℤ → ℤ)
  | .bitAnd => some (List.foldr Int.land (-1))
  | .bitOr => some (List.foldr Int.lor 0)
  | .bitXor => some (List.foldr Int.xor 0)
  | _ => none

/-- A shift of an integer by an integer number of places. -/
def shift? : Operator → Option (ℤ → ℤ → ℤ)
  | .leftShift => some (· <<< ·)
  | .rightShift => some (· >>> ·)
  | _ => none

theorem onBits?_singleton {op : Operator} {combine : List ℤ → ℤ} (found : op.onBits? = some combine)
    (n : ℤ) : combine [n] = n := by
  unfold onBits? at found
  split at found <;> cases found
  · exact land_neg_one n
  · exact (Std.Commutative.comm n 0).trans (zero_lor n)
  · exact (Std.Commutative.comm n 0).trans (zero_xor n)

theorem shift?_zero_places {op : Operator} {move : ℤ → ℤ → ℤ} (found : op.shift? = some move)
    (n : ℤ) : move n 0 = n := by
  unfold shift? at found
  split at found <;> cases found
  · exact (Int.shiftLeft_natCast_right n 0).trans (Int.shiftLeft_zero n)
  · exact (Int.shiftRight_natCast_right n 0).trans (Int.shiftRight_zero n)

theorem shift?_of_zero {op : Operator} {move : ℤ → ℤ → ℤ} (found : op.shift? = some move)
    (n : ℤ) : move 0 n = 0 := by
  unfold shift? at found
  split at found <;> cases found
  · exact Int.zero_shiftLeft' n
  · exact Int.zero_shiftRight' n

end Operator

namespace Reading

variable {K : Type*} [Field K]

/-- Bitwise nodes of two operands or more have a value just where all operands are integers. A shift
has one only there; it need not have one for every number of places. -/
structure TwosComplement (R : Reading K) : Prop where
  bitwise : ∀ {op : Operator} {combine : List ℤ → ℤ} {vs : List K} {v : K},
    op.onBits? = some combine → (R.integral op vs = some v ↔
      2 ≤ vs.length ∧ ∃ ns : List ℤ, ns.map (↑) = vs ∧ (combine ns : K) = v)
  shift : ∀ {op : Operator} {move : ℤ → ℤ → ℤ} {a b v : K}, op.shift? = some move →
    R.integral op [a, b] = some v → ∃ m n : ℤ, (m : K) = a ∧ (n : K) = b ∧ (move m n : K) = v

variable {R : Reading K}

theorem val_integral {op : Operator} {xs : List Expr} (other : op.onBits?.isSome ∨ op.shift?.isSome) :
    R.val (.node op xs) = (R.integral op (xs.map R.val)).getD 0 := by
  rw [val_node]
  cases op <;> first | rfl | exact absurd other (by decide)

theorem defined_integral {op : Operator} {xs : List Expr}
    (other : op.onBits?.isSome ∨ op.shift?.isSome) :
    R.Defined (.node op xs) ↔
      (∀ x ∈ xs, R.Defined x) ∧ (R.integral op (xs.map R.val)).isSome = true := by
  rw [defined_node]
  cases op <;> first | rfl | exact absurd other (by decide)

variable [CharZero K]

/-- The integer that is the value of an expression, where it is one. -/
noncomputable def integer (R : Reading K) (e : Expr) : ℤ :=
  Function.invFun (Int.cast : ℤ → K) (R.val e)

theorem integer_of_val {e : Expr} {n : ℤ} (h : (n : K) = R.val e) : R.integer e = n := by
  rw [integer, ← h]
  exact Function.leftInverse_invFun Int.cast_injective n

theorem map_integer {xs : List Expr} {ns : List ℤ} (h : ns.map (Int.cast : ℤ → K) = xs.map R.val) :
    xs.map R.integer = ns := by
  induction ns generalizing xs with
  | nil => rw [List.map_eq_nil_iff.mp h.symm, List.map_nil]
  | cons n ns ih =>
    cases xs with
    | nil => cases h
    | cons x xs =>
      obtain ⟨head, tail⟩ := List.cons.inj h
      rw [List.map_cons, integer_of_val head, ih tail]

theorem integer_of_isZero {e : Expr} (h : R.Defined e) (zero : e.isZero = true) :
    R.integer e = 0 :=
  integer_of_val (by rw [Int.cast_zero, val_of_isZero h zero])

theorem cast_integer {e : Expr} (h : ∃ n : ℤ, (n : K) = R.val e) : (R.integer e : K) = R.val e := by
  obtain ⟨n, value⟩ := h
  rw [integer_of_val value, value]

theorem defined_bitwise (laws : R.TwosComplement) {op : Operator} {combine : List ℤ → ℤ}
    (found : op.onBits? = some combine) {xs : List Expr} :
    R.Defined (.node op xs) ↔ (∀ x ∈ xs, R.Defined x) ∧ 2 ≤ xs.length ∧
      ∀ x ∈ xs, ∃ n : ℤ, (n : K) = R.val x := by
  rw [defined_integral (.inl (by rw [found]; rfl)), Option.isSome_iff_exists]
  simp only [laws.bitwise found, List.length_map]
  refine and_congr_right fun _ => ⟨?_, ?_⟩
  · rintro ⟨v, many, ns, same, -⟩
    refine ⟨many, fun x member => ?_⟩
    obtain ⟨n, -, value⟩ := List.mem_map.mp (same ▸ List.mem_map_of_mem member)
    exact ⟨n, value⟩
  · rintro ⟨many, integers⟩
    refine ⟨_, many, xs.map R.integer, ?_, rfl⟩
    rw [List.map_map]
    exact List.map_congr_left fun x member => cast_integer (integers x member)

theorem val_bitwise (laws : R.TwosComplement) {op : Operator} {combine : List ℤ → ℤ}
    (found : op.onBits? = some combine) {xs : List Expr} (h : R.Defined (.node op xs)) :
    R.val (.node op xs) = combine (xs.map R.integer) := by
  have some : op.onBits?.isSome ∨ op.shift?.isSome := .inl (by rw [found]; rfl)
  obtain ⟨-, result⟩ := (defined_integral some).mp h
  obtain ⟨v, hv⟩ := Option.isSome_iff_exists.mp result
  obtain ⟨-, ns, same, value⟩ := (laws.bitwise found).mp hv
  rw [val_integral some, hv, map_integer same, value]
  rfl

/-- Operands that do not count may go from a bitwise node, also if one or none is left. -/
theorem bitwise_keeps (laws : R.TwosComplement) {op : Operator} {combine : List ℤ → ℤ}
    (found : op.onBits? = some combine) {xs ys : List Expr} (h : R.Defined (.node op xs))
    (subset : ys ⊆ xs) (same : combine (ys.map R.integer) = combine (xs.map R.integer))
    (none : ys = [] → combine [] = 0) :
    R.Defined (SymbolicAlgebra.bitwise op ys) ∧
      R.val (SymbolicAlgebra.bitwise op ys) = R.val (.node op xs) := by
  obtain ⟨defined, -, integers⟩ := (defined_bitwise laws found).mp h
  rw [val_bitwise laws found h, ← same]
  match ys with
  | [] => exact ⟨defined_zero, by simp [SymbolicAlgebra.bitwise, none rfl]⟩
  | [y] =>
    have member : y ∈ xs := subset List.mem_cons_self
    refine ⟨defined y member, ?_⟩
    rw [List.map_singleton, Operator.onBits?_singleton found, cast_integer (integers y member),
      SymbolicAlgebra.bitwise]
  | y :: z :: zs =>
    have defined' : R.Defined (.node op (y :: z :: zs)) := (defined_bitwise laws found).mpr
      ⟨fun x member => defined x (subset member), by simp, fun x member =>
        integers x (subset member)⟩
    exact ⟨defined', val_bitwise laws found defined'⟩

/-! ## Trimming -/

theorem trimBitAnd_keeps (laws : R.TwosComplement) (xs : List Expr) :
    R.Keeps (.node .bitAnd xs) (trimBitAnd xs).expr := by
  intro h
  obtain ⟨defined, many, -⟩ := (defined_bitwise laws (rfl : Operator.bitAnd.onBits? = _)).mp h
  unfold trimBitAnd
  split
  · rename_i absorbed
    obtain ⟨x, member, zero⟩ := List.any_eq_true.mp absorbed
    refine ⟨defined_zero, ?_⟩
    have first := (List.perm_cons_erase member).map R.integer
    rw [val_bitwise laws rfl h, first.foldr_op_eq, List.map_cons, List.foldr_cons,
      integer_of_isZero (defined x member) zero, zero_land, Step.new, val_zero, Int.cast_zero]
  · refine bitwise_keeps laws rfl h (dropRepeats_subset xs) (foldr_dropRepeats _ xs) fun empty => ?_
    cases xs with
    | nil => cases many
    | cons x xs => cases empty

theorem trimBitOr_keeps (laws : R.TwosComplement) (xs : List Expr) :
    R.Keeps (.node .bitOr xs)
      (SymbolicAlgebra.bitwise .bitOr ((dropRepeats xs).filter fun x => !x.isZero)) := by
  intro h
  obtain ⟨defined, -⟩ := (defined_bitwise laws (rfl : Operator.bitOr.onBits? = _)).mp h
  have subset := dropRepeats_subset xs
  refine bitwise_keeps laws rfl h (fun x member => subset (List.mem_of_mem_filter member)) ?_
    fun _ => rfl
  rw [foldr_filter_isZero _ zero_lor fun x member => integer_of_isZero (defined x (subset member)),
    foldr_dropRepeats]

theorem trimBitXor_keeps (laws : R.TwosComplement) (xs : List Expr) :
    R.Keeps (.node .bitXor xs)
      (SymbolicAlgebra.bitwise .bitXor ((dropPairs [] xs).filter fun x => !x.isZero)) := by
  intro h
  obtain ⟨defined, -⟩ := (defined_bitwise laws (rfl : Operator.bitXor.onBits? = _)).mp h
  have subset : dropPairs [] xs ⊆ xs := fun x member =>
    (mem_of_mem_dropPairs member).resolve_left List.not_mem_nil
  refine bitwise_keeps laws rfl h (fun x member => subset (List.mem_of_mem_filter member)) ?_
    fun _ => rfl
  rw [foldr_filter_isZero _ zero_xor fun x member => integer_of_isZero (defined x (subset member)),
    foldr_dropPairs _ zero_xor xor_self, List.nil_append]

theorem trimShift_keeps (laws : R.TwosComplement) {op : Operator} {move : ℤ → ℤ → ℤ}
    (found : op.shift? = some move) (a b : Expr) :
    R.Keeps (.node op [a, b]) (trimShift op a b).expr := by
  intro h
  have some : op.onBits?.isSome ∨ op.shift?.isSome := .inr (by rw [found]; rfl)
  obtain ⟨operands, result⟩ := (defined_integral some).mp h
  obtain ⟨ha, hb⟩ : R.Defined a ∧ R.Defined b := by simpa using operands
  obtain ⟨v, hv⟩ := Option.isSome_iff_exists.mp result
  obtain ⟨m, n, left, places, value⟩ := laws.shift found hv
  have whole : R.val (.node op [a, b]) = v := by rw [val_integral some, hv]; rfl
  unfold trimShift
  split
  · rename_i zero
    rw [val_of_isZero hb zero, Int.cast_eq_zero] at places
    exact ⟨ha, by rw [Step.new, whole, ← value, places, Operator.shift?_zero_places found, left]⟩
  · split
    · rename_i zero
      rw [val_of_isZero ha zero, Int.cast_eq_zero] at left
      refine ⟨defined_zero, ?_⟩
      rw [Step.new, whole, ← value, left, Operator.shift?_of_zero found, val_zero, Int.cast_zero]
    · exact ⟨h, rfl⟩

end Reading

end SymbolicAlgebra
