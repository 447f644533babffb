import SymbolicAlgebra.Calculus.Derivative
import SymbolicAlgebra.Proofs.Identifiers
import SymbolicAlgebra.Proofs.Parts

/-! Which expressions have no derivative: those with a part that depends on the symbol and has no
rule. The rules look at every part that depends on the symbol, and at no other. -/
namespace SymbolicAlgebra

/-! ## Computations that report faults -/

/-- The computation fails just where there is a fault, and with one of the faults. -/
structure Reports {ε α : Type} (result : Except ε α) (fault : ε → Prop) : Prop where
  fault_of_error {err : ε} : result = .error err → fault err
  no_fault_of_ok {a : α} : result = .ok a → ∀ err, ¬ fault err

namespace Reports

variable {ε α β : Type} {result : Except ε α} {fault other : ε → Prop}

theorem ok {a : α} (none : ∀ err, ¬ fault err) : Reports (.ok a) fault :=
  ⟨nofun, fun _ => none⟩

theorem error {err : ε} (h : fault err) : Reports (.error err : Except ε α) fault :=
  ⟨fun same => Except.error.inj same ▸ h, nofun⟩

theorem congr (h : Reports result fault) (same : ∀ err, other err ↔ fault err) :
    Reports result other := by
  obtain rfl : other = fault := funext fun err => propext (same err)
  exact h

theorem bind {next : α → Except ε β} (first : Reports result fault)
    (second : ∀ a, Reports (next a) other) :
    Reports (result >>= next) fun err => fault err ∨ other err := by
  cases result with
  | error err => exact error (.inl (first.fault_of_error rfl))
  | ok a =>
    refine (second a).congr fun err => ?_
    simp [first.no_fault_of_ok rfl err]

/-- What is made of a result adds no fault. -/
theorem bind_pure (h : Reports result fault) (f : α → β) :
    Reports (result >>= fun a => pure (f a)) fault := by
  have none : ∀ a, Reports (pure (f a) : Except ε β) fun _ => False := fun a => ok fun _ => id
  exact (h.bind none).congr fun err => iff_of_eq (or_false _).symm

theorem map (h : Reports result fault) (f : α → β) : Reports (result.map f) fault := by
  cases result with
  | error err => exact error (h.fault_of_error rfl)
  | ok a => exact ok (h.no_fault_of_ok rfl)

theorem exists_error_iff (h : Reports result fault) :
    (∃ err, result = .error err) ↔ ∃ err, fault err := by
  constructor
  · rintro ⟨err, failed⟩
    exact ⟨err, h.fault_of_error failed⟩
  · rintro ⟨err, faulty⟩
    cases result with
    | error first => exact ⟨first, rfl⟩
    | ok a => exact absurd faulty (h.no_fault_of_ok rfl err)

end Reports

/-! ## Parts without a rule -/

/-- No rule differentiates the outermost construct of an expression by `x`; the error says why. -/
inductive LacksRule (x : String) : Expr → DerivativeError → Prop
  /-- Functions take one argument, and logarithms may have a base in front of it. -/
  | arguments {f : NamedFunction} {args : List Expr} (several : args.length ≠ 1)
    (based : ¬ (f = .log ∧ args.length = 2)) : LacksRule x (.call f args) (.unknownFunction f.name)
  /-- The function is known by its name only. -/
  | function (name : String) (arg : Expr) :
    LacksRule x (.call (.other name) [arg]) (.unknownFunction name)
  | operator {op : Operator} (operands : List Expr)
    (discrete : op ∈ [.modulus, .bitAnd, .bitOr, .bitXor, .leftShift, .rightShift]) :
    LacksRule x (.node op operands) (.notDifferentiable (.node op operands) x)
  | operands {op : Operator} {operands : List Expr} (binary : op ∈ [.subtract, .divide, .power])
    (count : operands.length ≠ 2) :
    LacksRule x (.node op operands) (.notDifferentiable (.node op operands) x)

/-- Some part of the expression depends on `x` and has no rule. -/
def IsFault (x : String) (e : Expr) (err : DerivativeError) : Prop :=
  ∃ part : Expr, part.occursIn e = true ∧ part.mentions x = true ∧ LacksRule x part err

open SymbolicAlgebra.Expr

variable {x : String} {err : DerivativeError}

theorem Expr.mentions_of_occursIn {part e : Expr} (inside : part.occursIn e = true)
    (depends : part.mentions x = true) : e.mentions x = true := by
  induction e with
  | number n => exact eq_of_beq inside ▸ depends
  | complex z => exact eq_of_beq inside ▸ depends
  | ident name => exact eq_of_beq inside ▸ depends
  | call f xs ih =>
    obtain rfl | ⟨y, member, deeper⟩ := occursIn_call.mp inside
    · exact depends
    · exact (mentions_call f xs).trans (List.any_eq_true.mpr ⟨y, member, ih y member deeper⟩)
  | node op xs ih =>
    obtain rfl | ⟨y, member, deeper⟩ := occursIn_node.mp inside
    · exact depends
    · exact (mentions_node op xs).trans (List.any_eq_true.mpr ⟨y, member, ih y member deeper⟩)

theorem not_isFault_of_free {e : Expr} (free : e.mentions x = false) : ¬ IsFault x e err := by
  rintro ⟨part, inside, depends, -⟩
  rw [mentions_of_occursIn inside depends] at free
  cases free

theorem isFault_self {e : Expr} (depends : e.mentions x = true) (lacks : LacksRule x e err) :
    IsFault x e err := by
  refine ⟨e, ?_, depends, lacks⟩
  cases e with
  | number _ | complex _ | ident _ => exact beq_self_eq_true _
  | call f xs => exact occursIn_call.mpr (.inl rfl)
  | node op xs => exact occursIn_node.mpr (.inl rfl)

/-- With a rule of its own an expression has the faults of its operands. -/
theorem isFault_of_operands {e : Expr} {operands : List Expr}
    (parts : ∀ part : Expr, part.occursIn e = true ↔
      part = e ∨ ∃ operand ∈ operands, part.occursIn operand = true)
    (rule : ¬ LacksRule x e err) :
    IsFault x e err ↔ ∃ operand ∈ operands, IsFault x operand err := by
  constructor
  · rintro ⟨part, inside, depends, lacks⟩
    obtain rfl | ⟨operand, member, deeper⟩ := (parts part).mp inside
    · exact absurd lacks rule
    · exact ⟨operand, member, part, deeper, depends, lacks⟩
  · rintro ⟨operand, member, part, deeper, depends, lacks⟩
    exact ⟨part, (parts part).mpr (.inr ⟨operand, member, deeper⟩), depends, lacks⟩

theorem isFault_call {f : NamedFunction} {args : List Expr}
    (rule : ¬ LacksRule x (.call f args) err) :
    IsFault x (.call f args) err ↔ ∃ arg ∈ args, IsFault x arg err :=
  isFault_of_operands (fun _ => occursIn_call) rule

theorem isFault_nary {op : Operator} (nary : op = .add ∨ op = .multiply) {operands : List Expr} :
    IsFault x (.node op operands) err ↔ ∃ operand ∈ operands, IsFault x operand err := by
  refine isFault_of_operands (fun _ => occursIn_node) ?_
  rintro (_ | _ | ⟨_, discrete⟩ | ⟨binary, _⟩)
  · obtain rfl | rfl := nary <;> simp at discrete
  · obtain rfl | rfl := nary <;> simp at binary

theorem isFault_binary {op : Operator} (binary : op ∈ [.subtract, .divide, .power]) {a b : Expr} :
    IsFault x (.node op [a, b]) err ↔ IsFault x a err ∨ IsFault x b err := by
  have rule : ¬ LacksRule x (.node op [a, b]) err := by
    rintro (_ | _ | ⟨_, discrete⟩ | ⟨_, count⟩)
    · revert binary discrete
      cases op <;> decide
    · exact count rfl
  rw [isFault_of_operands (fun _ => occursIn_node) rule]
  simp

/-! ## The rules report the faults of their operands -/

theorem rawDerivatives_reports {ts : List Expr}
    (each : ∀ t ∈ ts, Reports (t.rawDerivative x) (IsFault x t)) :
    Reports (Expr.rawDerivatives x ts) fun err => ∃ t ∈ ts, IsFault x t err := by
  induction ts with
  | nil => exact .ok fun err => by simp
  | cons t ts ih =>
    obtain ⟨here, there⟩ := List.forall_mem_cons.mp each
    rw [Expr.rawDerivatives]
    refine (here.bind fun d => (ih there).bind_pure _).congr fun err => ?_
    exact List.exists_mem_cons_iff _ _ _

theorem productDerivative_reports {rest : List Expr}
    (each : ∀ t ∈ rest, Reports (t.rawDerivative x) (IsFault x t)) (value derivative : Expr) :
    Reports (Expr.productDerivative x value derivative rest)
      fun err => ∃ t ∈ rest, IsFault x t err := by
  induction rest generalizing value derivative with
  | nil => exact .ok fun err => by simp
  | cons factor rest ih =>
    obtain ⟨here, there⟩ := List.forall_mem_cons.mp each
    rw [Expr.productDerivative]
    refine (here.bind fun next => ih there _ _).congr fun err => ?_
    exact List.exists_mem_cons_iff _ _ _

theorem rawDerivative_reports_log {base arg : Expr}
    (each : ∀ t ∈ [base, arg], Reports (t.rawDerivative x) (IsFault x t)) :
    Reports ((Expr.call .log [base, arg]).rawDerivative x) (IsFault x (.call .log [base, arg])) := by
  have ofBase := each base (by simp)
  have ofArg := each arg (by simp)
  have rule : ∀ err, ¬ LacksRule x (.call .log [base, arg]) err := by
    rintro _ ⟨_, based⟩
    exact based ⟨rfl, rfl⟩
  rw [Expr.rawDerivative]
  split
  case isTrue free => exact .ok fun err => not_isFault_of_free (by simpa using free)
  case isFalse =>
    have faults (err : DerivativeError) : IsFault x (.call .log [base, arg]) err ↔
        IsFault x base err ∨ IsFault x arg err := (isFault_call (rule err)).trans (by simp)
    split
    case isFalse free =>
      refine (ofArg.bind_pure _).congr fun err => (faults err).trans ?_
      exact or_iff_right (not_isFault_of_free (by simpa using free))
    case isTrue =>
      -- The logarithm of the argument is the top of a quotient, which comes before the bottom.
      dsimp only
      split
      case isTrue =>
        refine (ofArg.bind fun _ => ofBase.bind_pure _).congr fun err => (faults err).trans ?_
        exact or_comm
      case isFalse free =>
        refine (ofBase.bind_pure _).congr fun err => (faults err).trans ?_
        exact or_iff_left (not_isFault_of_free (by simpa using free))

theorem rawDerivative_reports_call {f : NamedFunction} {args : List Expr}
    (each : ∀ t ∈ args, Reports (t.rawDerivative x) (IsFault x t)) :
    Reports ((Expr.call f args).rawDerivative x) (IsFault x (.call f args)) := by
  by_cases log : ∃ base arg, f = .log ∧ args = [base, arg]
  · obtain ⟨base, arg, rfl, rfl⟩ := log
    exact rawDerivative_reports_log each
  unfold Expr.rawDerivative
  split
  case isTrue free => exact .ok fun err => not_isFault_of_free (by simpa using free)
  rename_i depends
  rw [Bool.not_eq_true, Bool.not_eq_false'] at depends
  split
  case h_1 => exact absurd ⟨_, _, rfl, rfl⟩ log
  case h_2 =>
    rename_i arg
    split
    case h_1 outer ruled =>
      have rule : ∀ err, ¬ LacksRule x (.call f [arg]) err := by
        rintro _ (⟨several, _⟩ | _)
        · exact several rfl
        · cases ruled
      refine ((each arg (by simp)).bind_pure _).congr fun err => ?_
      exact (isFault_call (rule err)).trans (by simp)
    case h_2 unruled =>
      refine .error (isFault_self depends ?_)
      cases f with
      | other name => exact .function name arg
      | circular r | arcCircular r | hyperbolic r | arcHyperbolic r => cases r <;> cases unruled
      | ln | log | abs | sqrt | sgn => cases unruled
  case h_3 =>
    rename_i notOne _
    refine .error (isFault_self depends (.arguments ?_ ?_))
    · intro one
      obtain ⟨arg, rfl⟩ := List.length_eq_one_iff.mp one
      exact notOne arg rfl
    · rintro ⟨rfl, two⟩
      obtain ⟨base, arg, rfl⟩ := List.length_eq_two.mp two
      exact log ⟨base, arg, rfl, rfl⟩

theorem rawDerivative_reports_node {op : Operator} {operands : List Expr}
    (each : ∀ t ∈ operands, Reports (t.rawDerivative x) (IsFault x t)) :
    Reports ((Expr.node op operands).rawDerivative x) (IsFault x (.node op operands)) := by
  unfold Expr.rawDerivative
  split
  case isTrue free => exact .ok fun err => not_isFault_of_free (by simpa using free)
  rename_i depends
  rw [Bool.not_eq_true, Bool.not_eq_false'] at depends
  split
  case h_1 =>
    refine ((rawDerivatives_reports each).bind_pure _).congr fun err => ?_
    exact isFault_nary (.inl rfl)
  case h_2 =>
    rename_i a b
    refine ((each a (by simp)).bind fun _ => (each b (by simp)).bind_pure _).congr fun err => ?_
    exact isFault_binary (by decide)
  case h_3 =>
    rename_i first rest
    obtain ⟨here, there⟩ := List.forall_mem_cons.mp each
    refine (here.bind fun _ => productDerivative_reports there _ _).congr fun err => ?_
    rw [isFault_nary (.inr rfl), List.exists_mem_cons_iff]
  case h_4 =>
    rename_i a b
    have top := each a (by simp)
    split
    case isTrue =>
      refine (top.bind fun _ => (each b (by simp)).bind_pure _).congr fun err => ?_
      exact isFault_binary (by decide)
    case isFalse free =>
      refine (top.bind_pure _).congr fun err => (isFault_binary (by decide)).trans ?_
      exact or_iff_left (not_isFault_of_free (by simpa using free))
  case h_5 =>
    rename_i base exponent
    have low := each base (by simp)
    have high := each exponent (by simp)
    split
    case isTrue free =>
      refine (low.bind_pure _).congr fun err => (isFault_binary (by decide)).trans ?_
      exact or_iff_left (not_isFault_of_free (by simpa using free))
    case isFalse =>
    split
    case isTrue free =>
      refine (high.bind_pure _).congr fun err => (isFault_binary (by decide)).trans ?_
      exact or_iff_right (not_isFault_of_free (by simpa using free))
    case isFalse =>
      refine (high.bind fun _ => low.bind_pure _).congr fun err => ?_
      exact (isFault_binary (by decide)).trans or_comm
  case h_6 notSum notDifference notProduct notQuotient notPower =>
    refine .error (isFault_self depends ?_)
    cases op with
    | modulus | bitAnd | bitOr | bitXor | leftShift | rightShift => exact .operator _ (by decide)
    | add => exact absurd rfl notSum
    | multiply =>
      cases operands with
      | nil => cases depends
      | cons first rest => exact absurd rfl (notProduct first rest rfl)
    | subtract =>
      refine .operands (by decide) fun two => ?_
      obtain ⟨a, b, rfl⟩ := List.length_eq_two.mp two
      exact notDifference a b rfl rfl
    | divide =>
      refine .operands (by decide) fun two => ?_
      obtain ⟨a, b, rfl⟩ := List.length_eq_two.mp two
      exact notQuotient a b rfl rfl
    | power =>
      refine .operands (by decide) fun two => ?_
      obtain ⟨base, exponent, rfl⟩ := List.length_eq_two.mp two
      exact notPower base exponent rfl rfl

/-- The derivative fails where a part that depends on the symbol has no rule, and nowhere else. -/
theorem rawDerivative_reports (x : String) (e : Expr) :
    Reports (e.rawDerivative x) (IsFault x e) := by
  induction e with
  | number n => exact .ok fun err => not_isFault_of_free rfl
  | complex z => exact .ok fun err => not_isFault_of_free rfl
  | ident name =>
    refine .ok fun err fault => ?_
    obtain ⟨part, inside, -, lacks⟩ := fault
    obtain rfl := eq_of_beq inside
    cases lacks
  | call f args ih => exact rawDerivative_reports_call ih
  | node op operands ih => exact rawDerivative_reports_node ih

/-- An expression has no derivative exactly if some part of it that depends on the symbol has no rule,
and the error is that of such a part. -/
theorem derivative_fails_iff (x : String) (e : Expr) :
    ((∃ err, derivative x e = .error err) ↔
      ∃ err, ∃ part : Expr, part.occursIn e = true ∧ part.mentions x = true ∧
        LacksRule x part err) ∧
    ∀ err, derivative x e = .error err →
      ∃ part : Expr, part.occursIn e = true ∧ part.mentions x = true ∧ LacksRule x part err := by
  have reports : Reports (derivative x e) (IsFault x e) := (rawDerivative_reports x e).map normalForm
  exact ⟨reports.exists_error_iff, fun err => reports.fault_of_error⟩

/-- A remainder is passed over where it is free of the symbol. -/
example : rawDerivative "x" (add (.node .modulus [.ident "y", ofInt 2]) (.ident "x")) =
    .ok (sum [zero, one]) := rfl

example : derivative "x" (add (apply (.other "f") (.ident "y"))
    (.node .modulus [.ident "x", ofInt 2])) =
    .error (.notDifferentiable (.node .modulus [.ident "x", ofInt 2]) "x") := rfl

end SymbolicAlgebra
