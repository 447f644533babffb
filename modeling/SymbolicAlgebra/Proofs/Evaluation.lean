import Mathlib.Data.List.Sort
import SymbolicAlgebra.NormalForm
import SymbolicAlgebra.Proofs.TreeOrdering

/-! Rounds that settle, and normal forms by structural recursion. Merge sort recurses on halves,
which the kernel does not unfold; with insertion in its place, which leaves the same order, a run on
a fixed tree can be worked out in a proof. -/
namespace SymbolicAlgebra

open SymbolicAlgebra.Expr

/-! ## Rounds that settle -/

/-- A round leaves the tree as it is before the limit is reached. -/
def SettlesWithin (simplify : Expr → Expr) : Nat → Expr → Prop
  | 0, _ => False
  | limit + 1, e => round simplify e = e ∨ SettlesWithin simplify limit (round simplify e)

/-- The run for the normal form settles. -/
def Settles (e : Expr) : Prop :=
  SettlesWithin normalFormClosed (RoundLimits.limit {} e.size) (toSums e).expr

theorem settle_of_fixed {simplify : Expr → Expr} {e : Expr} (fixed : round simplify e = e)
    (limit : Nat) : settle simplify limit e = e := by
  cases limit with
  | zero => rfl
  | succ limit => rw [settle]; exact if_pos fixed

/-- A run of which the first round leaves a tree that the next one leaves as it is. -/
theorem settle_of_round {simplify : Expr → Expr} {e settled : Expr} {limit : Nat}
    (first : round simplify e = settled) (fixed : round simplify settled = settled)
    (some : limit ≠ 0) : settle simplify limit e = settled := by
  cases limit with
  | zero => exact absurd rfl some
  | succ limit =>
    rw [settle, first]
    split
    · rename_i same
      exact same.symm
    · exact settle_of_fixed fixed limit

/-! ## Insertion for merge sort -/

/-- The operands in order, one inserted after the other. -/
def insertInOrder (order : Expr → Expr → Ordering) (xs : List Expr) : List Expr :=
  xs.insertionSort fun a b => (order a b != .gt) = true

theorem ordered_eq_insertInOrder {order : Expr → Expr → Ordering} (total : TotalOrder order)
    (xs : List Expr) : ordered order xs = insertInOrder order xs := by
  have := total.trans
  have : Std.Total fun a b => (order a b != .gt) = true := ⟨fun a b => by
    have swap : order a b = (order b a).swap := Std.OrientedCmp.eq_swap
    rw [bne_gt_iff, bne_gt_iff, swap]
    cases order b a <;> decide⟩
  have : IsTrans Expr fun a b => (order a b != .gt) = true := ⟨fun a b c => by
    simp only [bne_gt_iff]
    exact Std.TransCmp.isLE_trans⟩
  have : Std.Antisymm fun a b => (order a b != .gt) = true := ⟨fun a b below above => by
    rw [bne_gt_iff] at below above
    exact total.eq_of_tie (Std.OrientedCmp.isLE_antisymm below above)⟩
  have sorted := List.mergeSort_eq_insertionSort (fun a b => (order a b != .gt) = true) xs
  simp only [Bool.decide_eq_true] at sorted
  exact sorted

def insertOperandsNode : Expr → Step
  | .node op xs =>
    match op.operandOrder? with
    | some order =>
      if inOrder order xs then .same (.node op xs) else .new (.node op (insertInOrder order xs))
    | none => .same (.node op xs)
  | e => .same e

theorem orderOperandsNode_eq : orderOperandsNode = insertOperandsNode := by
  funext e
  cases e with
  | node op xs =>
    rw [orderOperandsNode, insertOperandsNode]
    cases found : op.operandOrder? with
    | none => rfl
    | some order =>
      dsimp only
      rw [← ordered_eq_insertInOrder (operandOrder?_total found)]
      rfl
  | _ => rfl

/-- The passes of a round, with operands inserted in order. -/
def insertionPasses (simplify : Expr → Expr) : List (Expr → Step) :=
  [toSums, flatten, normalizeCalls, expandPowers, distributeLoneSum, collectLike, trim, flatten,
    everywhere insertOperandsNode, reduceQuotients, reduceFactored simplify]

theorem passes_eq (simplify : Expr → Expr) : passes simplify = insertionPasses simplify := by
  have order : orderOperands = everywhere insertOperandsNode := by
    funext e
    rw [orderOperands, orderOperandsNode_eq]
  rw [passes, insertionPasses, order]

def insertionRound (simplify : Expr → Expr) (e : Expr) : Expr :=
  (insertionPasses simplify).foldl (fun e pass => (pass e).expr) e

theorem round_eq_insertionRound (simplify : Expr → Expr) :
    round simplify = insertionRound simplify := by
  funext e
  rw [round, insertionRound, passes_eq]

def insertionSettle (simplify : Expr → Expr) : Nat → Expr → Expr
  | 0, e => e
  | limit + 1, e =>
    let next := insertionRound simplify e
    if next = e then e else insertionSettle simplify limit next

theorem settle_eq_insertionSettle (simplify : Expr → Expr) (limit : Nat) (e : Expr) :
    settle simplify limit e = insertionSettle simplify limit e := by
  induction limit generalizing e with
  | zero => rfl
  | succ limit ih => rw [settle, insertionSettle, ih, round_eq_insertionRound]

def normalizeByInsertion (simplify : Expr → Expr) (options : RoundLimits) (e : Expr) : Step :=
  let settled := insertionSettle simplify (options.limit e.size) (toSums e).expr
  let result := (toDifferences settled).expr
  ⟨result, result != e⟩

theorem normalizeUsing_eq (simplify : Expr → Expr) :
    normalizeUsing simplify = normalizeByInsertion simplify := by
  funext options e
  rw [normalizeUsing, normalizeByInsertion, settle_eq_insertionSettle]

def closedByInsertion (e : Expr) : Expr := (normalizeByInsertion id {} e).expr

theorem normalFormClosed_eq : normalFormClosed = closedByInsertion := by
  funext e
  rw [normalFormClosed, closedByInsertion, normalizeUsing_eq]

theorem normalizeWithin_eq : normalizeWithin = normalizeByInsertion closedByInsertion := by
  funext options e
  rw [normalizeWithin, normalizeUsing_eq, normalFormClosed_eq]

theorem normalForm_eq :
    normalForm = fun e => (normalizeByInsertion closedByInsertion {} e).expr := by
  funext e
  rw [normalForm, normalize, normalizeWithin_eq]

end SymbolicAlgebra
