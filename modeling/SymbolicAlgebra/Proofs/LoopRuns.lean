import Mathlib.Tactic.TypeStar

/-! Loops turn by turn: how often they turn and where they stop. -/
namespace SymbolicAlgebra

/-- From `a` the loop stops in `b` after so many turns. A turn gives the next state, or none where
the loop stops. -/
inductive EndsIn {α : Type*} (turn : α → Option α) : Nat → α → α → Prop where
  | stop {a : α} (last : turn a = none) : EndsIn turn 0 a a
  | next {turns : Nat} {a b c : α} (first : turn a = some b) (rest : EndsIn turn turns b c) :
    EndsIn turn (turns + 1) a c

namespace EndsIn

variable {α : Type*} {turn : α → Option α} {turns : Nat} {a b : α}

theorem stopped (h : EndsIn turn turns a b) : turn b = none := by
  induction h with
  | stop last => exact last
  | next _ _ ih => exact ih

/-- What every turn keeps holds where the loop stops. -/
theorem invariant {P : α → Prop} (keeps : ∀ s t, P s → turn s = some t → P t)
    (h : EndsIn turn turns a b) (start : P a) : P b := by
  induction h with
  | stop _ => exact start
  | next first _ ih => exact ih (keeps _ _ start first)

end EndsIn

end SymbolicAlgebra
