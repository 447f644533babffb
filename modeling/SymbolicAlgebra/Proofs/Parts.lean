import SymbolicAlgebra.Expr.Query
import SymbolicAlgebra.Proofs.Congruence

/-! A property of every tree in a tree, and rules that leave each of them as it is. -/
namespace SymbolicAlgebra

namespace Expr

mutual

/-- The tree and every tree in it satisfy `P`. -/
def AllParts (P : Expr → Prop) : Expr → Prop
  | .node op xs => P (.node op xs) ∧ AllPartsOf P xs
  | .call f xs => P (.call f xs) ∧ AllPartsOf P xs
  | e => P e

def AllPartsOf (P : Expr → Prop) : List Expr → Prop
  | [] => True
  | x :: xs => AllParts P x ∧ AllPartsOf P xs

end

mutual

def decideAllParts (P : Expr → Prop) [DecidablePred P] : (e : Expr) → Decidable (AllParts P e)
  | .number x => inferInstanceAs (Decidable (P (.number x)))
  | .complex z => inferInstanceAs (Decidable (P (.complex z)))
  | .ident name => inferInstanceAs (Decidable (P (.ident name)))
  | .call _ xs => @instDecidableAnd _ _ _ (decideAllPartsOf P xs)
  | .node _ xs => @instDecidableAnd _ _ _ (decideAllPartsOf P xs)

def decideAllPartsOf (P : Expr → Prop) [DecidablePred P] :
    (xs : List Expr) → Decidable (AllPartsOf P xs)
  | [] => isTrue trivial
  | x :: xs => @instDecidableAnd _ _ (decideAllParts P x) (decideAllPartsOf P xs)

end

instance (P : Expr → Prop) [DecidablePred P] (e : Expr) : Decidable (AllParts P e) :=
  decideAllParts P e

variable {P Q : Expr → Prop}

theorem allPartsOf_iff (xs : List Expr) : AllPartsOf P xs ↔ ∀ x ∈ xs, AllParts P x := by
  induction xs with
  | nil => simp [AllPartsOf]
  | cons x xs ih => simp [AllPartsOf, ih]

theorem allParts_node {op : Operator} {xs : List Expr} :
    AllParts P (.node op xs) ↔ P (.node op xs) ∧ ∀ x ∈ xs, AllParts P x := by
  rw [AllParts, allPartsOf_iff]

theorem allParts_call {f : NamedFunction} {xs : List Expr} :
    AllParts P (.call f xs) ↔ P (.call f xs) ∧ ∀ x ∈ xs, AllParts P x := by
  rw [AllParts, allPartsOf_iff]

theorem AllParts.here {e : Expr} (h : AllParts P e) : P e := by
  cases e with
  | number x => exact h
  | complex z => exact h
  | ident name => exact h
  | call f xs => exact h.1
  | node op xs => exact h.1

theorem AllParts.operands {op : Operator} {xs : List Expr} (h : AllParts P (.node op xs)) :
    ∀ x ∈ xs, AllParts P x := (allParts_node.mp h).2

theorem AllParts.mono {e : Expr} (h : AllParts P e) (imp : ∀ e, P e → Q e) : AllParts Q e := by
  induction e with
  | number x => exact imp _ h
  | complex z => exact imp _ h
  | ident name => exact imp _ h
  | call f xs ih =>
    obtain ⟨here, below⟩ := allParts_call.mp h
    exact allParts_call.mpr ⟨imp _ here, fun x member => ih x member (below x member)⟩
  | node op xs ih =>
    obtain ⟨here, below⟩ := allParts_node.mp h
    exact allParts_node.mpr ⟨imp _ here, fun x member => ih x member (below x member)⟩

theorem AllParts.and {e : Expr} (hp : AllParts P e) (hq : AllParts Q e) :
    AllParts (fun part => P part ∧ Q part) e := by
  induction e with
  | number x => exact ⟨hp, hq⟩
  | complex z => exact ⟨hp, hq⟩
  | ident name => exact ⟨hp, hq⟩
  | call f xs ih =>
    obtain ⟨⟨p, ps⟩, q, qs⟩ := And.intro (allParts_call.mp hp) (allParts_call.mp hq)
    exact allParts_call.mpr ⟨⟨p, q⟩, fun x member => ih x member (ps x member) (qs x member)⟩
  | node op xs ih =>
    obtain ⟨⟨p, ps⟩, q, qs⟩ := And.intro (allParts_node.mp hp) (allParts_node.mp hq)
    exact allParts_node.mpr ⟨⟨p, q⟩, fun x member => ih x member (ps x member) (qs x member)⟩

/-- The parts of a part are parts. -/
theorem AllParts.parts {e : Expr} (h : AllParts P e) : AllParts (AllParts P) e := by
  induction e with
  | number x => exact h
  | complex z => exact h
  | ident name => exact h
  | call f xs ih =>
    exact allParts_call.mpr ⟨h, fun x member => ih x member ((allParts_call.mp h).2 x member)⟩
  | node op xs ih =>
    exact allParts_node.mpr ⟨h, fun x member => ih x member (h.operands x member)⟩

theorem AllParts.of_forall (h : ∀ e, P e) (e : Expr) : AllParts P e := by
  induction e with
  | number x => exact h _
  | complex z => exact h _
  | ident name => exact h _
  | call f xs ih => exact allParts_call.mpr ⟨h _, ih⟩
  | node op xs ih => exact allParts_node.mpr ⟨h _, ih⟩

theorem occursInAny_iff (target : Expr) (xs : List Expr) :
    occursInAny target xs = true ↔ ∃ x ∈ xs, occursIn target x = true := by
  induction xs with
  | nil => simp [occursInAny]
  | cons x xs ih => simp [occursInAny, ih]

theorem occursIn_call {target : Expr} {f : NamedFunction} {xs : List Expr} :
    occursIn target (.call f xs) = true ↔
      target = .call f xs ∨ ∃ x ∈ xs, occursIn target x = true := by
  rw [occursIn, Bool.or_eq_true, beq_iff_eq, occursInAny_iff, eq_comm]

theorem occursIn_node {target : Expr} {op : Operator} {xs : List Expr} :
    occursIn target (.node op xs) = true ↔
      target = .node op xs ∨ ∃ x ∈ xs, occursIn target x = true := by
  rw [occursIn, Bool.or_eq_true, beq_iff_eq, occursInAny_iff, eq_comm]

theorem eq_node_of_sides? {op : Operator} {p : Expr × Expr} {e : Expr}
    (h : e.sides? op = some p) : e = .node op [p.1, p.2] := by
  unfold sides? at h
  split at h
  · split at h
    · rename_i same
      cases h
      rw [same]
    · cases h
  · cases h

theorem sides?_eq_none {op : Operator} {e : Expr} (other : ∀ a b, e = .node op [a, b] → False) :
    e.sides? op = none := by
  cases found : e.sides? op with
  | none => rfl
  | some p => exact absurd (eq_node_of_sides? found) (other p.1 p.2)

end Expr

/-! ## Rules that do not apply -/

theorem everywhereAll_eq {rule : Expr → Step} {xs : List Expr}
    (each : ∀ x ∈ xs, everywhere rule x = .same x) : everywhereAll rule xs = (xs, false) := by
  induction xs with
  | nil => rfl
  | cons x xs ih =>
    obtain ⟨here, there⟩ := List.forall_mem_cons.mp each
    rw [everywhereAll, here, ih there]
    rfl

/-- A rule that leaves every tree in a tree as it is leaves the tree as it is. -/
theorem everywhere_eq_same {rule : Expr → Step} {e : Expr}
    (h : e.AllParts fun part => rule part = .same part) : everywhere rule e = .same e := by
  induction e with
  | number x => exact h
  | complex z => exact h
  | ident name => exact h
  | call f xs ih =>
    obtain ⟨here, below⟩ := Expr.allParts_call.mp h
    rw [everywhere, everywhereAll_eq fun x member => ih x member (below x member), here]
    rfl
  | node op xs ih =>
    obtain ⟨here, below⟩ := Expr.allParts_node.mp h
    rw [everywhere, everywhereAll_eq fun x member => ih x member (below x member), here]
    rfl

end SymbolicAlgebra
