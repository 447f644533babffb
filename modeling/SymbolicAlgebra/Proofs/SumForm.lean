import SymbolicAlgebra.Proofs.Terms
import SymbolicAlgebra.Rule.Flatten
import SymbolicAlgebra.Sum.Difference

/-! Differences written as sums and back, and nested sums and products made flat, keep values. -/
namespace SymbolicAlgebra

/-- Drawing an addend in front only moves it. -/
theorem takePositive?_perm {xs rest : List Expr} {p : Expr}
    (h : takePositive? xs = some (p, rest)) : (p :: rest).Perm xs := by
  induction xs generalizing p rest with
  | nil => cases h
  | cons x xs ih =>
    unfold takePositive? at h
    split at h
    · obtain ⟨⟨q, tail⟩, found, same⟩ := Option.map_eq_some_iff.mp h
      simp only [Prod.mk.injEq] at same
      obtain ⟨rfl, rfl⟩ := same
      exact (List.Perm.swap _ _ _).trans ((ih found).cons x)
    · simp only [Option.some.injEq, Prod.mk.injEq] at h
      obtain ⟨rfl, rfl⟩ := h
      exact List.Perm.refl _

theorem bringPositiveForward_perm (xs : List Expr) : (bringPositiveForward xs).1.Perm xs := by
  unfold bringPositiveForward
  split
  · exact List.Perm.refl _
  · split
    · split
      · rename_i found
        exact takePositive?_perm found
      · exact List.Perm.refl _
    · exact List.Perm.refl _

namespace Reading

variable {K : Type*} [Field K] {R : Reading K}

theorem add_keeps_of_perm {xs ys : List Expr} (moved : ys.Perm xs) :
    R.Keeps (.node .add xs) (.node .add ys) := by
  intro h
  rw [defined_node_add] at h
  rw [defined_node_add, val_node_add, val_node_add]
  exact ⟨fun y member => h y (moved.mem_iff.mp member), (moved.map R.val).sum_eq⟩

theorem multiply_keeps_of_perm {xs ys : List Expr} (moved : ys.Perm xs) :
    R.Keeps (.node .multiply xs) (.node .multiply ys) := by
  intro h
  rw [defined_node_multiply] at h
  rw [defined_node_multiply, val_node_multiply, val_node_multiply]
  exact ⟨fun y member => h y (moved.mem_iff.mp member), (moved.map R.val).prod_eq⟩

theorem orderAddends_keeps (e : Expr) : R.Keeps e (orderAddends e).expr := by
  unfold orderAddends
  split
  · rename_i xs
    exact add_keeps_of_perm (bringPositiveForward_perm xs)
  · exact Keeps.refl _

theorem positiveFirst_keeps (e : Expr) : R.Keeps e (positiveFirst e).expr :=
  everywhere_keeps orderAddends_keeps e

/-! ## Differences -/

theorem differenceToSum_keeps (e : Expr) : R.Keeps e (differenceToSum e).expr := by
  unfold differenceToSum
  split
  · rename_i a b
    intro h
    obtain ⟨ha, hb⟩ := (defined_node_subtract a b).mp h
    constructor
    · simp only [Step.new, defined_node_add, List.mem_append, List.mem_singleton]
      rintro x (left | rfl)
      · exact (defined_addends a).mpr ha x left
      · exact defined_negate hb
    · simp [Step.new, val_negate hb, sub_eq_add_neg]
  · exact Keeps.refl _

theorem toSums_keeps (e : Expr) : R.Keeps e (toSums e).expr :=
  everywhere_keeps differenceToSum_keeps e

/-- Each negative addend is taken off the sum of all before it. -/
theorem subtractFrom_spec (run : List Expr) {xs : List Expr} (before : ∀ x ∈ run, R.Defined x)
    (after : ∀ x ∈ xs, R.Defined x) :
    R.Defined (subtractFrom run xs) ∧
      R.val (subtractFrom run xs) = (run.map R.val).sum + (xs.map R.val).sum := by
  induction xs generalizing run with
  | nil => simpa [subtractFrom] using before
  | cons x xs ih =>
    have head := after x List.mem_cons_self
    have tail := fun y member => after y (List.mem_cons_of_mem _ member)
    unfold subtractFrom
    by_cases negative : x.isNegative
    · obtain ⟨defined, value⟩ := unsigned_spec head
      obtain ⟨result, total⟩ := ih [.sub (.sum run) x.unsigned]
        (by simpa [defined] using before) tail
      simp only [negative, ↓reduceIte] at value ⊢
      refine ⟨result, ?_⟩
      simp only [total, List.map_cons, List.map_nil, List.sum_cons, List.sum_nil, val_sub, val_sum,
        value]
      ring
    · obtain ⟨result, total⟩ := ih (run ++ [x])
        (by simpa [or_imp, forall_and, head] using before) tail
      simp only [negative, Bool.false_eq_true, ↓reduceIte]
      refine ⟨result, ?_⟩
      simp only [total, List.map_append, List.map_cons, List.map_nil, List.sum_append,
        List.sum_cons, List.sum_nil]
      ring

theorem sumToDifference_keeps (e : Expr) : R.Keeps e (sumToDifference e).expr := by
  unfold sumToDifference
  split
  · rename_i x y xs
    have moved := bringPositiveForward_perm (x :: y :: xs)
    split
    · rename_i first rest _ heq
      rw [heq] at moved
      split
      · refine (add_keeps_of_perm moved).trans fun h => ?_
        rw [defined_node_add] at h
        obtain ⟨defined, value⟩ := subtractFrom_spec (R := R) [first]
          (by simpa using h first List.mem_cons_self)
          fun z member => h z (List.mem_cons_of_mem _ member)
        exact ⟨defined, by simpa [Step.new] using value⟩
      · exact add_keeps_of_perm moved
    · rename_i heq
      rw [heq] at moved
      exact add_keeps_of_perm moved
  · exact Keeps.refl _

theorem toDifferences_keeps (e : Expr) : R.Keeps e (toDifferences e).expr :=
  everywhere_keeps sumToDifference_keeps e

/-! ## Flat nodes -/

/-- Sums and products are the nodes that have a value and can be spliced. -/
def OnlyArithmetic (R : Reading K) : Prop := ∀ op vs, R.integral op vs = none

omit [Field K] in
theorem ofAssignment_onlyArithmetic (ident : String → K) :
    (ofAssignment ident).OnlyArithmetic := fun _ _ => rfl

theorem OnlyArithmetic.not_defined (only : R.OnlyArithmetic) {op : Operator} {xs : List Expr}
    (h : op ∉ [.add, .subtract, .multiply, .divide, .power]) : ¬ R.Defined (.node op xs) := by
  rw [defined_node]
  cases op <;> simp_all [Applies, only _ _]

theorem splice_add_spec {xs : List Expr} (h : ∀ x ∈ xs, R.Defined x) :
    (∀ x ∈ splice .add xs, R.Defined x) ∧
      ((splice .add xs).map R.val).sum = (xs.map R.val).sum := by
  fun_induction splice .add xs with
  | case1 => simp
  | case2 inner xs ih =>
    obtain ⟨defined, value⟩ := ih fun y member => h y (List.mem_cons_of_mem _ member)
    have head := (defined_node_add inner).mp (h _ List.mem_cons_self)
    refine ⟨?_, by simp [value]⟩
    simp only [List.mem_append]
    exact fun y member => member.elim (head y) (defined y)
  | case3 xs o inner other ih | case4 x xs other ih =>
    obtain ⟨defined, value⟩ := ih fun y member => h y (List.mem_cons_of_mem _ member)
    exact ⟨List.forall_mem_cons.mpr ⟨h _ List.mem_cons_self, defined⟩, by simp [value]⟩

theorem splice_multiply_spec {xs : List Expr} (h : ∀ x ∈ xs, R.Defined x) :
    (∀ x ∈ splice .multiply xs, R.Defined x) ∧
      ((splice .multiply xs).map R.val).prod = (xs.map R.val).prod := by
  fun_induction splice .multiply xs with
  | case1 => simp
  | case2 inner xs ih =>
    obtain ⟨defined, value⟩ := ih fun y member => h y (List.mem_cons_of_mem _ member)
    have head := (defined_node_multiply inner).mp (h _ List.mem_cons_self)
    refine ⟨?_, by simp [value]⟩
    simp only [List.mem_append]
    exact fun y member => member.elim (head y) (defined y)
  | case3 xs o inner other ih | case4 x xs other ih =>
    obtain ⟨defined, value⟩ := ih fun y member => h y (List.mem_cons_of_mem _ member)
    exact ⟨List.forall_mem_cons.mpr ⟨h _ List.mem_cons_self, defined⟩, by simp [value]⟩

/-- A flattened sum or product is the one that its spliced operands build. -/
theorem flattenNode_add (xs : List Expr) :
    (flattenNode (.node .add xs)).expr = .sum (splice .add xs) := by
  unfold flattenNode
  simp only [Operator.isAssociative, ↓reduceIte]
  split <;> simp_all [Expr.sum, Step.new, Operator.unit, Expr.zero]

theorem flattenNode_multiply (xs : List Expr) :
    (flattenNode (.node .multiply xs)).expr = .product (splice .multiply xs) := by
  unfold flattenNode
  simp only [Operator.isAssociative, ↓reduceIte]
  split <;> simp_all [Expr.product, Step.new, Operator.unit, Expr.one]

/-- The operators that have a value only where a reading gives them one, and are spliced. -/
def bitwise : List Operator := [.bitAnd, .bitOr, .bitXor]

/-- What splicing relies on where the bitwise operators have values: without operands they are their
unit, one operand is the value, and the value of nested operands may be taken first. -/
structure Splices (R : Reading K) : Prop where
  empty : ∀ {op v}, op ∈ bitwise → R.integral op [] = some v → v = R.val op.unit
  single : ∀ {op x v}, op ∈ bitwise → R.integral op [x] = some v → v = x
  nested : ∀ {op before inner after x v}, op ∈ bitwise → R.integral op inner = some x →
    R.integral op (before ++ x :: after) = some v →
    R.integral op (before ++ (inner ++ after)) = some v

theorem OnlyArithmetic.splices (only : R.OnlyArithmetic) : R.Splices where
  empty _ value := by simp [only _ _] at value
  single _ value := by simp [only _ _] at value
  nested _ value := by simp [only _ _] at value

theorem node_bitwise_iff {op : Operator} (member : op ∈ bitwise) {xs : List Expr} {v : K} :
    R.Defined (.node op xs) ∧ R.val (.node op xs) = v ↔
      (∀ x ∈ xs, R.Defined x) ∧ R.integral op (xs.map R.val) = some v := by
  rw [defined_node, val_node, and_assoc]
  simp only [bitwise, List.mem_cons, List.not_mem_nil, or_false] at member
  obtain rfl | rfl | rfl := member <;> refine and_congr_right fun _ => ?_ <;>
    cases value : R.integral _ (xs.map R.val) <;> simp [Applies, operate, value]

theorem splice_bitwise_spec (laws : R.Splices) {op : Operator} (member : op ∈ bitwise)
    {xs : List Expr} (h : ∀ x ∈ xs, R.Defined x) {before : List K} {v : K}
    (value : R.integral op (before ++ xs.map R.val) = some v) :
    (∀ x ∈ splice op xs, R.Defined x) ∧
      R.integral op (before ++ (splice op xs).map R.val) = some v := by
  fun_induction splice op xs generalizing before with
  | case1 => exact ⟨h, value⟩
  | case2 inner xs ih =>
    obtain ⟨head, tail⟩ := List.forall_mem_cons.mp h
    obtain ⟨within, nested⟩ := (node_bitwise_iff member).mp ⟨head, rfl⟩
    have spliced := laws.nested member nested value
    rw [← List.append_assoc] at spliced
    obtain ⟨defined, same⟩ := ih tail spliced
    refine ⟨fun x => by simpa only [List.mem_append] using Or.rec (within x) (defined x), ?_⟩
    rwa [List.map_append, ← List.append_assoc]
  | case3 xs o inner other ih | case4 x xs other ih =>
    obtain ⟨head, tail⟩ := List.forall_mem_cons.mp h
    rw [List.map_cons, List.append_cons] at value
    obtain ⟨defined, same⟩ := ih tail value
    exact ⟨List.forall_mem_cons.mpr ⟨head, defined⟩, by rwa [List.map_cons, List.append_cons]⟩

theorem flattenNode_bitwise_keeps (laws : R.Splices) {op : Operator} (member : op ∈ bitwise)
    (xs : List Expr) : R.Keeps (.node op xs) (flattenNode (.node op xs)).expr := by
  intro h
  obtain ⟨each, value⟩ := (node_bitwise_iff member).mp ⟨h, rfl⟩
  rw [← List.nil_append (xs.map R.val)] at value
  obtain ⟨defined, same⟩ := splice_bitwise_spec laws member each value
  rw [List.nil_append] at same
  have associative : op.isAssociative = true := by
    simp only [bitwise, List.mem_cons, List.not_mem_nil, or_false] at member
    obtain rfl | rfl | rfl := member <;> rfl
  simp only [flattenNode, associative, ↓reduceIte]
  split
  · rename_i none
    rw [none] at same
    exact ⟨by cases op <;> rfl, (laws.empty member same).symm⟩
  · rename_i x one
    rw [one] at same defined
    exact ⟨defined x List.mem_cons_self, (laws.single member same).symm⟩
  · exact (node_bitwise_iff member).mpr ⟨defined, same⟩

theorem flattenNode_keeps (laws : R.Splices) (e : Expr) : R.Keeps e (flattenNode e).expr := by
  intro h
  cases e with
  | node op xs =>
    cases op with
    | add =>
      obtain ⟨defined, value⟩ := splice_add_spec ((defined_node_add xs).mp h)
      rw [flattenNode_add, defined_sum, val_sum, val_node_add]
      exact ⟨defined, value⟩
    | multiply =>
      obtain ⟨defined, value⟩ := splice_multiply_spec ((defined_node_multiply xs).mp h)
      rw [flattenNode_multiply, defined_product, val_product, val_node_multiply]
      exact ⟨defined, value⟩
    | bitAnd | bitOr | bitXor => exact flattenNode_bitwise_keeps laws (by decide) xs h
    | subtract | divide | power | modulus | leftShift | rightShift => exact ⟨h, rfl⟩
  | number _ | complex _ | ident _ | call _ _ => exact ⟨h, rfl⟩

theorem flatten_keeps (laws : R.Splices) (e : Expr) : R.Keeps e (flatten e).expr :=
  everywhere_keeps (flattenNode_keeps laws) e

end Reading

end SymbolicAlgebra
