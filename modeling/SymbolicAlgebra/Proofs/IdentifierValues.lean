import SymbolicAlgebra.Proofs.Identifiers
import SymbolicAlgebra.Proofs.Rounds

/-! What an expression is worth when a part of it is replaced by something of the same value, and when
an identifier gets another value. -/
namespace SymbolicAlgebra

namespace Reading

variable {K : Type*} [Field K] {R : Reading K}

/-- Putting something of the same value for a part keeps the value. -/
theorem replace_keeps {target replacement : Expr} (same : R.Keeps target replacement) (e : Expr) :
    R.Keeps e (Expr.replace target replacement e).expr := by
  have whole : R.Keeps target (Expr.replace target replacement target).expr := by
    rw [Expr.replace_self]
    exact same
  induction e with
  | call f xs ih =>
    by_cases here : .call f xs = target
    · exact here ▸ whole
    · rw [Expr.replace_call here]
      exact call_keeps ih
  | node op xs ih =>
    by_cases here : .node op xs = target
    · exact here ▸ whole
    · rw [Expr.replace_node here]
      exact node_keeps ih
  | _ =>
    unfold Expr.replace
    split
    · rename_i here
      exact here ▸ same
    · exact Keeps.refl _

/-- The reading with another value for one identifier. -/
def assign (R : Reading K) (name : String) (v : K) : Reading K :=
  { R with ident := Function.update R.ident name v }

omit [Field K] in
@[simp] theorem assign_ident_self (name : String) (v : K) : (R.assign name v).ident name = v :=
  Function.update_self ..

omit [Field K] in
@[simp] theorem assign_ident_of_ne {name other : String} (different : other ≠ name) (v : K) :
    (R.assign name v).ident other = R.ident other := Function.update_of_ne different ..

/-- An identifier that does not occur does not matter. -/
theorem assign_free {name : String} {e : Expr} (free : e.mentions name = false) (v : K) :
    ((R.assign name v).Defined e ↔ R.Defined e) ∧ (R.assign name v).val e = R.val e := by
  induction e with
  | number x => exact ⟨Iff.rfl, rfl⟩
  | complex z => exact ⟨Iff.rfl, rfl⟩
  | ident other =>
    exact ⟨Iff.rfl, assign_ident_of_ne (by simpa using free) v⟩
  | call f xs ih =>
    have each : ∀ x ∈ xs, x.mentions name = false := by simpa using free
    have values : xs.map (R.assign name v).val = xs.map R.val :=
      List.map_congr_left fun x member => (ih x member (each x member)).2
    rw [defined_call, defined_call, val_call, val_call, values]
    exact ⟨and_congr_left' (forall₂_congr fun x member => (ih x member (each x member)).1), rfl⟩
  | node op xs ih =>
    have each : ∀ x ∈ xs, x.mentions name = false := by simpa using free
    have values : xs.map (R.assign name v).val = xs.map R.val :=
      List.map_congr_left fun x member => (ih x member (each x member)).2
    rw [defined_node, defined_node, val_node, val_node, values]
    exact ⟨and_congr (forall₂_congr fun x member => (ih x member (each x member)).1) Iff.rfl, rfl⟩

/-- The laws speak of no identifier but `e`. -/
theorem Lawful.assign (laws : R.Lawful) {name : String} (other : "e" ≠ name) (v : K) :
    (R.assign name v).Lawful where
  only := laws.only
  unit := laws.unit
  collection :=
    { laws.collection with
      exponential := by
        rw [assign_ident_of_ne other]
        exact laws.collection.exponential }
  evaluation :=
    { laws.evaluation with
      atZero := by
        intro f e w special value
        have free : e.mentions name = false := by
          unfold NamedFunction.atZero? at special
          split at special <;> cases special <;> rfl
        rw [(assign_free free v).2]
        exact laws.evaluation.atZero special value
      ln_e := by
        rw [assign_ident_of_ne other]
        exact laws.evaluation.ln_e
      ln_power := by
        rw [assign_ident_of_ne other]
        exact laws.evaluation.ln_power }

end Reading

end SymbolicAlgebra
