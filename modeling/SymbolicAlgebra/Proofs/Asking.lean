import SymbolicAlgebra.Expr.Basic

/-! Computations that ask for the normal forms of trees which they make on their way. The answers
may come from any function, and what was asked for can be listed. -/
namespace SymbolicAlgebra

/-- A value, or a tree and what is done with its normal form. -/
inductive Asking (α : Type) where
  | done (value : α)
  | ask (tree : Expr) (resume : Expr → Asking α)

namespace Asking

variable {α β : Type}

def bind : Asking α → (α → Asking β) → Asking β
  | done a, next => next a
  | ask t resume, next => ask t fun e => (resume e).bind next

instance : Monad Asking where
  pure := done
  bind := bind

instance : LawfulMonad Asking :=
  LawfulMonad.mk' Asking
    (fun x => by
      induction x with
      | done a => rfl
      | ask t resume ih => exact congrArg (ask t) (funext ih))
    (fun _ _ => rfl)
    (fun x f g => by
      induction x with
      | done a => rfl
      | ask t resume ih => exact congrArg (ask t) (funext ih))

/-- The normal form of a tree. -/
def request (t : Expr) : Asking Expr := ask t done

/-- Goes on with a result, if there is one. -/
def andThen (x : Asking (Option α)) (next : α → Asking (Option β)) : Asking (Option β) := do
  match ← x with
  | some a => next a
  | none => return none

/-! ## Answers -/

/-- The value, with the normal forms that `answer` gives. -/
def run (answer : Expr → Expr) : Asking α → α
  | done a => a
  | ask t resume => (resume (answer t)).run answer

/-- The trees that are asked for, in this order. -/
def asked (answer : Expr → Expr) : Asking α → List Expr
  | done _ => []
  | ask t resume => t :: (resume (answer t)).asked answer

/-- The value, if every answer comes. -/
def run? (answer? : Expr → Option Expr) : Asking α → Option α
  | done a => some a
  | ask t resume => (answer? t).bind fun e => (resume e).run? answer?

variable {answer : Expr → Expr}

theorem run_bind (x : Asking α) (next : α → Asking β) :
    (x >>= next).run answer = (next (x.run answer)).run answer := by
  induction x with
  | done a => rfl
  | ask t resume ih => exact ih (answer t)

theorem asked_bind (x : Asking α) (next : α → Asking β) :
    (x >>= next).asked answer = x.asked answer ++ (next (x.run answer)).asked answer := by
  induction x with
  | done a => rfl
  | ask t resume ih => exact congrArg (t :: ·) (ih (answer t))

/-- Only the answers to what is asked for count. -/
theorem run_congr {other : Expr → Expr} {x : Asking α}
    (same : ∀ t ∈ x.asked answer, other t = answer t) : x.run other = x.run answer := by
  induction x with
  | done a => rfl
  | ask t resume ih =>
    obtain ⟨first, rest⟩ := List.forall_mem_cons.mp same
    rw [run, first]
    exact ih (answer t) rest

/-- The value comes if the answers to all that is asked for do. -/
theorem run?_eq_some {answer? : Expr → Option Expr} {x : Asking α}
    (answered : ∀ t ∈ x.asked answer, answer? t = some (answer t)) :
    x.run? answer? = some (x.run answer) := by
  induction x with
  | done a => rfl
  | ask t resume ih =>
    obtain ⟨first, rest⟩ := List.forall_mem_cons.mp answered
    rw [run?, first]
    exact ih (answer t) rest

theorem eq_done {x : Asking α} (none : x.asked answer = []) : x = done (x.run answer) := by
  cases x with
  | done a => rfl
  | ask t resume => cases none

/-! ## Computations that ask for certain trees only -/

/-- The computation comes to the value and asks for allowed trees only. -/
structure Gives (answer : Expr → Expr) (allowed : Expr → Prop) (x : Asking α) (value : α) :
    Prop where
  run_eq : x.run answer = value
  allowed : ∀ t ∈ x.asked answer, allowed t

namespace Gives

variable {allowed : Expr → Prop} {x : Asking α} {a : α} {b : β}

theorem done (a : α) : Gives answer allowed (done a) a := ⟨rfl, nofun⟩

theorem request {t : Expr} (h : allowed t) : Gives answer allowed (request t) (answer t) :=
  ⟨rfl, fun _ member => List.mem_singleton.mp member ▸ h⟩

theorem bind {next : α → Asking β} (first : Gives answer allowed x a)
    (rest : Gives answer allowed (next a) b) : Gives answer allowed (x >>= next) b := by
  obtain ⟨rfl, before⟩ := first
  refine ⟨(run_bind x next).trans rest.run_eq, fun t member => ?_⟩
  rw [asked_bind, List.mem_append] at member
  exact member.elim (before t) (rest.allowed t)

theorem map {f : α → β} (first : Gives answer allowed x a) :
    Gives answer allowed (f <$> x) (f a) := by
  rw [map_eq_pure_bind]
  exact first.bind (done (f a))

theorem ite {c : Prop} [Decidable c] {x y : Asking α} {a b : α} (yes : c → Gives answer allowed x a)
    (no : ¬c → Gives answer allowed y b) :
    Gives answer allowed (if c then x else y) (if c then a else b) := by
  split
  · exact yes ‹_›
  · exact no ‹_›

theorem andThen {x : Asking (Option α)} {a : Option α} {next : α → Asking (Option β)}
    {f : α → Option β} (first : Gives answer allowed x a)
    (rest : ∀ v, a = some v → Gives answer allowed (next v) (f v)) :
    Gives answer allowed (x.andThen next) (a.bind f) := by
  refine first.bind ?_
  cases a with
  | none => exact done none
  | some v => exact rest v rfl

theorem mapM {as : List α} {next : α → Asking β} {f : α → β}
    (each : ∀ a ∈ as, Gives answer allowed (next a) (f a)) :
    Gives answer allowed (as.mapM next) (as.map f) := by
  induction as with
  | nil => exact done []
  | cons a as ih =>
    obtain ⟨first, rest⟩ := List.forall_mem_cons.mp each
    rw [List.mapM_cons]
    exact first.bind ((ih rest).bind (done _))

/-- A fold of which every step gives what it should, as long as `Inv` holds of what came so far. -/
theorem foldlM {as : List α} {next : β → α → Asking β} {f : β → α → β} {Inv : β → Prop} {b : β}
    (start : Inv b)
    (step : ∀ b, Inv b → ∀ a ∈ as, Gives answer allowed (next b a) (f b a) ∧ Inv (f b a)) :
    Gives answer allowed (as.foldlM next b) (as.foldl f b) := by
  induction as generalizing b with
  | nil => exact done b
  | cons a as ih =>
    obtain ⟨first, keeps⟩ := step b start a List.mem_cons_self
    rw [List.foldlM_cons]
    exact first.bind (ih keeps fun b holds a member =>
      step b holds a (List.mem_cons_of_mem _ member))

end Gives

end Asking

end SymbolicAlgebra
