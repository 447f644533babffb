import SymbolicAlgebra.Proofs.Reading
import SymbolicAlgebra.Rule.Everywhere

/-! A rule that keeps values at every node keeps them when it is applied everywhere. -/
namespace SymbolicAlgebra

/-- Induction on a tree, with the claim for all operands and arguments at hand. -/
@[induction_eliminator]
theorem Expr.ind {P : Expr → Prop} (number : ∀ x, P (.number x)) (complex : ∀ z, P (.complex z))
    (ident : ∀ name, P (.ident name)) (call : ∀ f xs, (∀ x ∈ xs, P x) → P (.call f xs))
    (node : ∀ op xs, (∀ x ∈ xs, P x) → P (.node op xs)) (e : Expr) : P e :=
  Expr.rec (motive_1 := P) (motive_2 := fun xs => ∀ x ∈ xs, P x) number complex ident call node
    (fun _ member => absurd member List.not_mem_nil)
    (fun _ _ head tail y member => (List.mem_cons.mp member).elim (· ▸ head) (tail y)) e

theorem Expr.eq_ident_of_isIdent {name : String} {e : Expr} (h : e.isIdent name) :
    e = .ident name := by
  cases e with
  | ident n => rw [beq_iff_eq.mp h]
  | number _ | complex _ | call _ _ | node _ _ => cases h

theorem Expr.eq_apply_of_argument? {f : NamedFunction} {e arg : Expr}
    (h : e.argument? f = some arg) : e = .apply f arg := by
  unfold Expr.argument? at h
  split at h
  · simp only [Option.ite_none_right_eq_some, Option.some.injEq] at h
    obtain ⟨rfl, rfl⟩ := h
    rfl
  · cases h

mutual

/-- Every expression that the rule is applied to satisfies `P`. -/
def Visits (rule : Expr → Step) (P : Expr → Prop) : Expr → Prop
  | .node op xs => VisitsAll rule P xs ∧ P (.node op (everywhereAll rule xs).1)
  | .call f xs => VisitsAll rule P xs ∧ P (.call f (everywhereAll rule xs).1)
  | e => P e

def VisitsAll (rule : Expr → Step) (P : Expr → Prop) : List Expr → Prop
  | [] => True
  | x :: xs => Visits rule P x ∧ VisitsAll rule P xs

end

mutual

def decideVisits (rule : Expr → Step) (P : Expr → Prop) [DecidablePred P] :
    (e : Expr) → Decidable (Visits rule P e)
  | .number x => inferInstanceAs (Decidable (P (.number x)))
  | .complex z => inferInstanceAs (Decidable (P (.complex z)))
  | .ident name => inferInstanceAs (Decidable (P (.ident name)))
  | .call _ xs => @instDecidableAnd _ _ (decideVisitsAll rule P xs) _
  | .node _ xs => @instDecidableAnd _ _ (decideVisitsAll rule P xs) _

def decideVisitsAll (rule : Expr → Step) (P : Expr → Prop) [DecidablePred P] :
    (xs : List Expr) → Decidable (VisitsAll rule P xs)
  | [] => isTrue trivial
  | x :: xs => @instDecidableAnd _ _ (decideVisits rule P x) (decideVisitsAll rule P xs)

end

instance (rule : Expr → Step) (P : Expr → Prop) [DecidablePred P] (e : Expr) :
    Decidable (Visits rule P e) := decideVisits rule P e

theorem everywhereAll_fst (rule : Expr → Step) (xs : List Expr) :
    (everywhereAll rule xs).1 = xs.map fun x => (everywhere rule x).expr := by
  induction xs with
  | nil => rfl
  | cons x xs ih => rw [everywhereAll, ih, List.map_cons]

theorem visitsAll_iff {rule : Expr → Step} {P : Expr → Prop} (xs : List Expr) :
    VisitsAll rule P xs ↔ ∀ x ∈ xs, Visits rule P x := by
  induction xs with
  | nil => simp [VisitsAll]
  | cons x xs ih => simp [VisitsAll, ih]

theorem everywhere_node (rule : Expr → Step) (op : Operator) (xs : List Expr) :
    (everywhere rule (.node op xs)).expr =
      (rule (.node op (xs.map fun x => (everywhere rule x).expr))).expr := by
  rw [everywhere, everywhereAll_fst]

theorem everywhere_call (rule : Expr → Step) (f : NamedFunction) (xs : List Expr) :
    (everywhere rule (.call f xs)).expr =
      (rule (.call f (xs.map fun x => (everywhere rule x).expr))).expr := by
  rw [everywhere, everywhereAll_fst]

theorem visits_of_forall {rule : Expr → Step} {P : Expr → Prop} (all : ∀ e, P e) (e : Expr) :
    Visits rule P e := by
  induction e with
  | number x => exact all _
  | complex z => exact all _
  | ident name => exact all _
  | call f xs ih => exact ⟨(visitsAll_iff xs).mpr ih, all _⟩
  | node op xs ih => exact ⟨(visitsAll_iff xs).mpr ih, all _⟩

theorem visits_and {rule : Expr → Step} {P Q : Expr → Prop} {e : Expr} (hp : Visits rule P e)
    (hq : Visits rule Q e) : Visits rule (fun e => P e ∧ Q e) e := by
  induction e with
  | number x => exact ⟨hp, hq⟩
  | complex z => exact ⟨hp, hq⟩
  | ident name => exact ⟨hp, hq⟩
  | call f xs ih | node op xs ih =>
    have first := (visitsAll_iff xs).mp hp.1
    have second := (visitsAll_iff xs).mp hq.1
    exact ⟨(visitsAll_iff xs).mpr fun x member => ih x member (first x member) (second x member),
      hp.2, hq.2⟩

namespace Reading

variable {K : Type*} [Field K] {R : Reading K}

/-- Operands that keep their values may be put in the place of others. -/
theorem map_keeps {g : Expr → Expr} {xs : List Expr} (each : ∀ x ∈ xs, R.Keeps x (g x))
    (h : ∀ x ∈ xs, R.Defined x) :
    (∀ y ∈ xs.map g, R.Defined y) ∧ (xs.map g).map R.val = xs.map R.val := by
  constructor
  · intro y member
    obtain ⟨x, inside, rfl⟩ := List.mem_map.mp member
    exact (each x inside (h x inside)).1
  · rw [List.map_map]
    exact List.map_congr_left fun x inside => (each x inside (h x inside)).2

theorem node_keeps {op : Operator} {g : Expr → Expr} {xs : List Expr}
    (each : ∀ x ∈ xs, R.Keeps x (g x)) : R.Keeps (.node op xs) (.node op (xs.map g)) := by
  intro h
  rw [defined_node] at h
  obtain ⟨defined, same⟩ := map_keeps each h.1
  rw [defined_node, val_node, val_node, same]
  exact ⟨⟨defined, h.2⟩, rfl⟩

theorem call_keeps {f : NamedFunction} {g : Expr → Expr} {xs : List Expr}
    (each : ∀ x ∈ xs, R.Keeps x (g x)) : R.Keeps (.call f xs) (.call f (xs.map g)) := by
  intro h
  rw [defined_call] at h
  obtain ⟨defined, same⟩ := map_keeps each h.1
  rw [defined_call, val_call, val_call, same]
  exact ⟨⟨defined, h.2⟩, rfl⟩

/-- The operands are rewritten first, so the rule has to keep values only where it is applied. -/
theorem everywhere_keeps_of_visits {rule : Expr → Step} {P : Expr → Prop}
    (keeps : ∀ e, P e → R.Keeps e (rule e).expr) {e : Expr} (visits : Visits rule P e) :
    R.Keeps e (everywhere rule e).expr := by
  induction e with
  | number x => exact keeps _ visits
  | complex z => exact keeps _ visits
  | ident name => exact keeps _ visits
  | call f xs ih =>
    obtain ⟨below, here⟩ := visits
    rw [visitsAll_iff] at below
    rw [everywhereAll_fst] at here
    rw [everywhere_call]
    exact (call_keeps fun x member => ih x member (below x member)).trans (keeps _ here)
  | node op xs ih =>
    obtain ⟨below, here⟩ := visits
    rw [visitsAll_iff] at below
    rw [everywhereAll_fst] at here
    rw [everywhere_node]
    exact (node_keeps fun x member => ih x member (below x member)).trans (keeps _ here)

theorem everywhere_keeps {rule : Expr → Step} (keeps : ∀ e, R.Keeps e (rule e).expr) (e : Expr) :
    R.Keeps e (everywhere rule e).expr :=
  everywhere_keeps_of_visits (P := fun _ => True) (fun e _ => keeps e)
    (visits_of_forall (fun _ => trivial) e)

end Reading

end SymbolicAlgebra
