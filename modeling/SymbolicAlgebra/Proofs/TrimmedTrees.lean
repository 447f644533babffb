import Mathlib.Data.List.Nodup
import SymbolicAlgebra.Proofs.BitwiseValues
import SymbolicAlgebra.Proofs.Parts

/-! Trimming has nothing left to do on a tree that it made, and keeps the value of every tree: that of
arithmetic, of calls as partial functions, and of bitwise nodes on integers. -/
namespace SymbolicAlgebra

open SymbolicAlgebra.Expr

/-! ## Operands that are left -/

theorem nodup_dropRepeats (xs : List Expr) : (dropRepeats xs).Nodup := by
  induction xs with
  | nil => exact List.nodup_nil
  | cons x xs ih =>
    refine List.nodup_cons.mpr ⟨fun member => ?_, ih.filter _⟩
    simpa using (List.mem_filter.mp member).2

theorem dropRepeats_of_nodup {xs : List Expr} (distinct : xs.Nodup) : dropRepeats xs = xs := by
  induction xs with
  | nil => rfl
  | cons x xs ih =>
    obtain ⟨fresh, rest⟩ := List.nodup_cons.mp distinct
    rw [dropRepeats, ih rest, List.filter_eq_self.mpr]
    intro y member
    exact bne_iff_ne.mpr fun same => fresh (same ▸ member)

theorem nodup_dropPairs {kept : List Expr} (distinct : kept.Nodup) (xs : List Expr) :
    (dropPairs kept xs).Nodup := by
  induction xs generalizing kept with
  | nil => exact distinct
  | cons x xs ih =>
    rw [dropPairs]
    split
    case isTrue => exact ih (distinct.erase x)
    case isFalse fresh =>
      exact ih (distinct.append (List.nodup_singleton x) (List.disjoint_singleton.mpr fresh))

theorem dropPairs_of_nodup {kept xs : List Expr} (distinct : (kept ++ xs).Nodup) :
    dropPairs kept xs = kept ++ xs := by
  induction xs generalizing kept with
  | nil => rw [dropPairs, List.append_nil]
  | cons x xs ih =>
    have fresh : x ∉ kept := fun member =>
      (List.disjoint_of_nodup_append distinct) member List.mem_cons_self
    rw [dropPairs, if_neg fresh, ih] <;> rw [List.append_assoc, List.singleton_append]
    exact distinct

/-! ## Trees that are trimmed -/

/-- With trimmed operands, only the rule at the root is left to be tried. -/
theorem trim_node_of_idle {op : Operator} {xs : List Expr} (operands : ∀ x ∈ xs, trim x = .same x)
    (idle : trimNode (.node op xs) = .same (.node op xs)) :
    trim (.node op xs) = .same (.node op xs) := by
  rw [trim, everywhere, everywhereAll_eq operands, idle]
  rfl

theorem trim_sum {xs : List Expr} (operands : ∀ x ∈ xs, trim x = .same x)
    (nonzero : ∀ x ∈ xs, x.isZero = false) : trim (.sum xs) = .same (.sum xs) := by
  match xs with
  | [] => rfl
  | [x] => exact operands x List.mem_cons_self
  | x :: y :: zs =>
    refine trim_node_of_idle operands ?_
    have all : (x :: y :: zs).filter (fun x => !x.isZero) = x :: y :: zs :=
      List.filter_eq_self.mpr fun z member => by rw [nonzero z member]; rfl
    rw [trimNode, rebuilt, all, bne_self_eq_false]
    rfl

/-- Beside an undefined factor, a zero stands. -/
theorem trim_product {xs : List Expr} (operands : ∀ x ∈ xs, trim x = .same x)
    (whole : ∀ x ∈ xs, x.isOne = false)
    (absorbed : xs.any isZero = true → xs.any isNaN = true) :
    trim (.product xs) = .same (.product xs) := by
  match xs with
  | [] => rfl
  | [x] => exact operands x List.mem_cons_self
  | x :: y :: zs =>
    refine trim_node_of_idle operands ?_
    have all : (x :: y :: zs).filter (fun x => !x.isOne) = x :: y :: zs :=
      List.filter_eq_self.mpr fun z member => by rw [whole z member]; rfl
    have stands : ¬(!(x :: y :: zs).any isNaN && (x :: y :: zs).any isZero) = true := by
      rw [Bool.and_eq_true, Bool.not_eq_true']
      rintro ⟨defined, zero⟩
      rw [absorbed zero] at defined
      cases defined
    rw [trimNode, trimProduct, if_neg stands, rebuilt, all, bne_self_eq_false]
    rfl

theorem trim_bitwise {op : Operator} {xs : List Expr} (operands : ∀ x ∈ xs, trim x = .same x)
    (idle : 2 ≤ xs.length → trimNode (.node op xs) = ⟨bitwise op xs, false⟩) :
    trim (bitwise op xs) = .same (bitwise op xs) := by
  match xs with
  | [] => rfl
  | [x] => exact operands x List.mem_cons_self
  | x :: y :: zs => exact trim_node_of_idle operands (idle (by simp))

/-! ## Nodes of trimmed operands -/

section Nodes

variable {xs : List Expr} {a b : Expr}

theorem trim_trimSum (operands : ∀ x ∈ xs, trim x = .same x) :
    let result := Expr.sum (xs.filter fun x => !x.isZero)
    trim result = .same result :=
  trim_sum (fun x member => operands x (List.mem_of_mem_filter member)) fun x member => by
    simpa using (List.mem_filter.mp member).2

theorem trim_trimProduct (operands : ∀ x ∈ xs, trim x = .same x) :
    trim (trimProduct xs).expr = .same (trimProduct xs).expr := by
  unfold trimProduct
  split
  case isTrue => rfl
  case isFalse stands =>
    refine trim_product (fun x member => operands x (List.mem_of_mem_filter member)) ?_ ?_
    · intro x member
      simpa using (List.mem_filter.mp member).2
    · intro zero
      obtain ⟨x, member, isZero⟩ := List.any_eq_true.mp zero
      have undefined : xs.any isNaN = true := by
        rw [Bool.and_eq_true, not_and, Bool.not_eq_true', Bool.not_eq_true] at stands
        by_contra defined
        have none := stands (Bool.not_eq_true _ ▸ defined)
        exact absurd isZero (List.any_eq_false.mp none x (List.mem_of_mem_filter member))
      obtain ⟨y, inside, isNaN⟩ := List.any_eq_true.mp undefined
      refine List.any_eq_true.mpr ⟨y, List.mem_filter.mpr ⟨inside, ?_⟩, isNaN⟩
      match y, isNaN with
      | .number .nan, _ => rfl

theorem trim_trimBitAnd (operands : ∀ x ∈ xs, trim x = .same x) :
    trim (trimBitAnd xs).expr = .same (trimBitAnd xs).expr := by
  unfold trimBitAnd
  split
  case isTrue => rfl
  case isFalse absorbed =>
    have subset := dropRepeats_subset xs
    refine trim_bitwise (fun x member => operands x (subset member)) fun many => ?_
    have none : ¬(dropRepeats xs).any isZero = true := fun zero => by
      obtain ⟨x, member, isZero⟩ := List.any_eq_true.mp zero
      exact absorbed (List.any_eq_true.mpr ⟨x, subset member, isZero⟩)
    have several : ((dropRepeats xs).length == 1) = false := by
      rw [beq_eq_false_iff_ne]
      omega
    rw [trimNode, trimBitAnd, if_neg none, dropRepeats_of_nodup (nodup_dropRepeats xs)]
    simp only [bne_self_eq_false, several, Bool.or_self]

theorem trim_trimBitOr (operands : ∀ x ∈ xs, trim x = .same x) :
    let result := bitwise .bitOr ((dropRepeats xs).filter fun x => !x.isZero)
    trim result = .same result := by
  refine trim_bitwise
    (fun x member => operands x (dropRepeats_subset xs (List.mem_of_mem_filter member))) fun _ => ?_
  rw [trimNode, dropRepeats_of_nodup ((nodup_dropRepeats xs).filter _), List.filter_filter]
  simp only [Bool.and_self, rebuilt, bne_self_eq_false]

theorem trim_trimBitXor (operands : ∀ x ∈ xs, trim x = .same x) :
    let result := bitwise .bitXor ((dropPairs [] xs).filter fun x => !x.isZero)
    trim result = .same result := by
  refine trim_bitwise (fun x member => operands x ?_) fun _ => ?_
  · exact (mem_of_mem_dropPairs (List.mem_of_mem_filter member)).resolve_left List.not_mem_nil
  · have distinct : ([] ++ (dropPairs [] xs).filter fun x : Expr => !x.isZero).Nodup :=
      (nodup_dropPairs List.nodup_nil xs).filter _
    rw [trimNode, dropPairs_of_nodup distinct, List.nil_append, List.filter_filter]
    simp only [Bool.and_self, rebuilt, bne_self_eq_false]

end Nodes

/-- What becomes of a node with two operands: it stays, or the first of them or a constant is left. -/
inductive TrimmedSides (op : Operator) (a b : Expr) : Step → Prop
  | idle : TrimmedSides op a b (.same (.node op [a, b]))
  | first : TrimmedSides op a b (.new a)
  | constant {e : Expr} : e ∈ [.zero, .one, undefinedQuotient] → TrimmedSides op a b (.new e)

namespace TrimmedSides

theorem difference (a b : Expr) : TrimmedSides .subtract a b (trimDifference a b) := by
  unfold trimDifference
  split
  · exact .first
  · split
    · exact .constant (by simp)
    · exact .idle

theorem quotient (a b : Expr) : TrimmedSides .divide a b (trimQuotient a b) := by
  unfold trimQuotient
  split
  · exact .constant (by simp)
  · split
    · exact .idle
    · split
      · exact .first
      · split
        · exact .constant (by simp)
        · split
          · exact .constant (by simp)
          · exact .idle

theorem power (a b : Expr) : TrimmedSides .power a b (trimPower a b) := by
  unfold trimPower
  split
  · exact .first
  · split
    · exact .constant (by simp)
    · split
      · exact .constant (by simp)
      · exact .idle

theorem shift (op : Operator) (a b : Expr) : TrimmedSides op a b (trimShift op a b) := by
  unfold trimShift
  split
  · exact .first
  · split
    · exact .constant (by simp)
    · exact .idle

theorem trim {op : Operator} {a b : Expr} (sides : TrimmedSides op a b (trimNode (.node op [a, b])))
    (operands : ∀ x ∈ [a, b], SymbolicAlgebra.trim x = .same x) :
    SymbolicAlgebra.trim (trimNode (.node op [a, b])).expr =
      .same (trimNode (.node op [a, b])).expr := by
  generalize result : trimNode (.node op [a, b]) = s at sides
  cases sides with
  | idle => exact trim_node_of_idle operands result
  | first => exact operands a List.mem_cons_self
  | constant member =>
    simp only [List.mem_cons, List.not_mem_nil, or_false] at member
    rcases member with rfl | rfl | rfl <;> rfl

end TrimmedSides

/-- The rules at a node of trimmed operands leave a trimmed tree. -/
theorem trim_trimNode {op : Operator} {xs : List Expr} (operands : ∀ x ∈ xs, trim x = .same x) :
    trim (trimNode (.node op xs)).expr = .same (trimNode (.node op xs)).expr := by
  have idle (same : trimNode (.node op xs) = .same (.node op xs)) :
      trim (trimNode (.node op xs)).expr = .same (trimNode (.node op xs)).expr := by
    rw [same]
    exact trim_node_of_idle operands same
  match op, xs with
  | .add, xs => exact trim_trimSum operands
  | .multiply, xs => exact trim_trimProduct operands
  | .bitAnd, xs => exact trim_trimBitAnd operands
  | .bitOr, xs => exact trim_trimBitOr operands
  | .bitXor, xs => exact trim_trimBitXor operands
  | .subtract, [a, b] => exact (TrimmedSides.difference a b).trim operands
  | .divide, [a, b] => exact (TrimmedSides.quotient a b).trim operands
  | .power, [a, b] => exact (TrimmedSides.power a b).trim operands
  | .leftShift, [a, b] => exact (TrimmedSides.shift .leftShift a b).trim operands
  | .rightShift, [a, b] => exact (TrimmedSides.shift .rightShift a b).trim operands
  | .modulus, xs => exact idle rfl
  | .subtract, [] | .subtract, [_] | .subtract, _ :: _ :: _ :: _ => exact idle rfl
  | .divide, [] | .divide, [_] | .divide, _ :: _ :: _ :: _ => exact idle rfl
  | .power, [] | .power, [_] | .power, _ :: _ :: _ :: _ => exact idle rfl
  | .leftShift, [] | .leftShift, [_] | .leftShift, _ :: _ :: _ :: _ => exact idle rfl
  | .rightShift, [] | .rightShift, [_] | .rightShift, _ :: _ :: _ :: _ => exact idle rfl

/-- One run trims a tree. -/
theorem trim_trim (e : Expr) : trim (trim e).expr = .same (trim e).expr := by
  induction e with
  | number x => rfl
  | complex z => rfl
  | ident name => rfl
  | call f xs ih =>
    have shape : (trim (.call f xs)).expr = .call f (xs.map fun x => (trim x).expr) :=
      everywhere_call trimNode f xs
    have below : ∀ x ∈ xs.map fun x => (trim x).expr, trim x = .same x := by simpa using ih
    rw [shape, trim, everywhere, everywhereAll_eq below]
    rfl
  | node op xs ih =>
    have shape : (trim (.node op xs)).expr =
        (trimNode (.node op (xs.map fun x => (trim x).expr))).expr := everywhere_node trimNode op xs
    have below : ∀ x ∈ xs.map fun x => (trim x).expr, trim x = .same x := by simpa using ih
    rw [shape]
    exact trim_trimNode below

/-! ## Values -/

namespace Reading

variable {K : Type*} [Field K] [CharZero K] {R : Reading K}

theorem trimNode_keeps_twosComplement (laws : R.TwosComplement) (e : Expr) :
    R.Keeps e (trimNode e).expr := by
  unfold trimNode
  split
  · exact trimSum_keeps _
  · exact trimProduct_keeps _
  · exact trimBitOr_keeps laws _
  · exact trimBitAnd_keeps laws _
  · exact trimBitXor_keeps laws _
  · exact trimDifference_keeps _ _
  · exact trimQuotient_keeps _ _
  · exact trimPower_keeps _ _
  · exact trimShift_keeps laws rfl _ _
  · exact trimShift_keeps laws rfl _ _
  · exact Keeps.refl _

/-- The rational numbers, with the bitwise operators and the shifts on integers. -/
def onRationals (ident : String → ℚ) (call : NamedFunction → List ℚ → Option ℚ) : Reading ℚ where
  ident := ident
  unit? := none
  call := call
  integral op vs := do
    let ns ← vs.mapM fun r => (Numeral.exact r).integer?
    match op.onBits?, op.shift?, ns with
    | some combine, _, m :: n :: rest => some (combine (m :: n :: rest) : ℤ)
    | _, some move, [m, n] => some (move m n : ℤ)
    | _, _, _ => none

theorem mapM_integer? {vs : List ℚ} {ns : List ℤ} :
    (vs.mapM fun r => (Numeral.exact r).integer?) = some ns ↔ ns.map (Int.cast : ℤ → ℚ) = vs := by
  have one {r : ℚ} {n : ℤ} : (Numeral.exact r).integer? = some n ↔ (n : ℚ) = r := by
    constructor
    · intro found
      exact (Numeral.exact.inj (Numeral.isExact_of_integer? found)).symm
    · rintro rfl
      simp [Numeral.integer?]
  induction vs generalizing ns with
  | nil => cases ns <;> simp
  | cons r rs ih =>
    simp only [List.mapM_cons, Option.bind_eq_bind, Option.bind_eq_some_iff, one, ih,
      Option.pure_def, Option.some.injEq]
    cases ns with
    | nil => simp
    | cons n ns => simp [and_comm]

theorem onRationals_shift (ident : String → ℚ) (call : NamedFunction → List ℚ → Option ℚ)
    {op : Operator} {move : ℤ → ℤ → ℤ} (found : op.shift? = some move) (m n : ℤ) :
    (onRationals ident call).integral op [(m : ℚ), (n : ℚ)] = some (move m n : ℤ) := by
  have bits : op.onBits? = none := by
    unfold Operator.shift? at found
    split at found <;> first | rfl | cases found
  have integers : ([(m : ℚ), (n : ℚ)].mapM fun r => (Numeral.exact r).integer?) = some [m, n] :=
    mapM_integer?.mpr rfl
  simp only [onRationals, Option.bind_eq_bind, integers, Option.bind_some, found, bits,
    Option.pure_def]

theorem onRationals_twosComplement (ident : String → ℚ)
    (call : NamedFunction → List ℚ → Option ℚ) : (onRationals ident call).TwosComplement where
  bitwise {op combine vs v} found := by
    simp only [onRationals, Option.bind_eq_bind, Option.bind_eq_some_iff, mapM_integer?, found]
    constructor
    · rintro ⟨ns, rfl, value⟩
      match ns, value with
      | m :: n :: rest, value => exact ⟨by simp, _, rfl, Option.some.inj value⟩
    · rintro ⟨many, ns, rfl, rfl⟩
      match ns, many with
      | m :: n :: rest, _ => exact ⟨_, rfl, rfl⟩
  shift {op move a b v} found value := by
    obtain ⟨ns, integers, -⟩ := Option.bind_eq_some_iff.mp value
    match ns, mapM_integer?.mp integers with
    | [m, n], same =>
      simp only [List.map_cons, List.map_nil, List.cons.injEq, and_true] at same
      obtain ⟨rfl, rfl⟩ := same
      rw [onRationals_shift ident call found] at value
      exact ⟨m, n, rfl, rfl, Option.some.inj value⟩

end Reading

/-- Trimming a trimmed tree changes nothing, and wherever a tree has a value, the trimmed one has the
same. -/
theorem trim_settles_and_keeps_value (e : Expr) :
    trim (trim e).expr = .same (trim e).expr ∧
      ∀ {K : Type*} [Field K] [CharZero K] {R : Reading K}, R.TwosComplement → R.Defined e →
        R.Defined (trim e).expr ∧ R.val (trim e).expr = R.val e :=
  ⟨trim_trim e, fun laws => Reading.everywhere_keeps (Reading.trimNode_keeps_twosComplement laws) e⟩

/-- `f((x | 0 | x) ^^ (x << 0) ^^ 5)` is trimmed to `f(5)`. -/
theorem trim_settles_and_keeps_value_of_bits :
    let R := Reading.onRationals (fun _ => 6) fun _ vs => some (vs.sum / 2)
    let x : Expr := .ident "x"
    let e : Expr := .call (.other "f") [.node .bitXor [.node .bitOr [x, .zero, x],
      .node .leftShift [x, .zero], .ofInt 5]]
    R.TwosComplement ∧ R.Defined e ∧ (trim e).expr = .call (.other "f") [.ofInt 5] ∧
      trim (.call (.other "f") [.ofInt 5]) = .same (.call (.other "f") [.ofInt 5]) ∧
      R.val (.call (.other "f") [.ofInt 5]) = R.val e := by
  intro R x e
  have laws : R.TwosComplement := Reading.onRationals_twosComplement _ _
  have result : (trim e).expr = .call (.other "f") [.ofInt 5] := by decide +kernel
  have six : ∃ n : ℤ, (n : ℚ) = R.val x := ⟨6, rfl⟩
  have either : R.Defined (.node .bitOr [x, .zero, x]) :=
    (Reading.defined_bitwise laws rfl).mpr ⟨by simp [x], by simp, by simpa using six⟩
  have shift : R.integral .leftShift ([x, .zero].map R.val) = some ((6 <<< (0 : ℤ) : ℤ) : ℚ) := by
    have moved := Reading.onRationals_shift (fun _ => 6) (fun _ vs => some (vs.sum / 2))
      (rfl : Operator.leftShift.shift? = _) 6 0
    simpa [x, R, Reading.onRationals] using moved
  have shifted : R.Defined (.node .leftShift [x, .zero]) :=
    (Reading.defined_integral (.inr rfl)).mpr ⟨by simp [x], by rw [shift]; rfl⟩
  have defined : R.Defined e := by
    have integers : ∀ y ∈ [Expr.node .bitOr [x, .zero, x], .node .leftShift [x, .zero], .ofInt 5],
        R.Defined y ∧ ∃ n : ℤ, (n : ℚ) = R.val y := by
      simp only [List.forall_mem_cons]
      exact ⟨⟨either, _, (Reading.val_bitwise laws rfl either).symm⟩, ⟨shifted, _, by
        rw [Reading.val_integral (.inr rfl)]
        exact (congrArg (Option.getD · 0) shift).symm⟩, ⟨rfl, 5, (Reading.val_ofInt 5).symm⟩,
        List.forall_mem_nil _⟩
    have whole := (Reading.defined_bitwise laws (rfl : Operator.bitXor.onBits? = _)).mpr
      ⟨fun y member => (integers y member).1, by simp, fun y member => (integers y member).2⟩
    exact (Reading.defined_call _ _).mpr ⟨by simpa using whole, rfl⟩
  obtain ⟨settled, keeps⟩ := trim_settles_and_keeps_value e
  rw [result] at settled keeps
  exact ⟨laws, defined, result, settled, (keeps laws defined).2⟩

end SymbolicAlgebra
