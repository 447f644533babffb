import SymbolicAlgebra.Proofs.Identifiers
import SymbolicAlgebra.Proofs.Parts

/-! The replacement of a subtree: when it fires, what it leaves alone, and the value of what it
leaves however operators and calls are read. -/
namespace SymbolicAlgebra

namespace Expr

variable {target replacement e : Expr}

/-! ## Where it fires -/

/-- A subtree is replaced just if it occurs. -/
theorem replace_changed_iff (target replacement e : Expr) :
    (replace target replacement e).changed = true ↔ target.occursIn e = true := by
  induction e with
  | call f xs ih =>
    rw [occursIn_call]
    by_cases here : .call f xs = target
    · rw [here, replace_self]
      exact iff_of_true rfl (.inl rfl)
    · rw [replace_call here, List.any_eq_true, or_iff_right (Ne.symm here)]
      exact exists_congr fun x => and_congr_right (ih x)
  | node op xs ih =>
    rw [occursIn_node]
    by_cases here : .node op xs = target
    · rw [here, replace_self]
      exact iff_of_true rfl (.inl rfl)
    · rw [replace_node here, List.any_eq_true, or_iff_right (Ne.symm here)]
      exact exists_congr fun x => and_congr_right (ih x)
  | _ =>
    unfold replace occursIn
    split <;> simp_all [Step.new, Step.same]

/-- Where the subtree does not occur the tree stays as it is. -/
theorem replace_of_absent (replacement : Expr) (absent : ¬ target.occursIn e = true) :
    (replace target replacement e).expr = e := by
  induction e with
  | call f xs ih =>
    rw [occursIn_call, not_or, not_exists] at absent
    have each := List.map_congr_left fun x member => ih x member (absent.2 x ⟨member, ·⟩)
    rw [replace_call (Ne.symm absent.1), each, List.map_id']
  | node op xs ih =>
    rw [occursIn_node, not_or, not_exists] at absent
    have each := List.map_congr_left fun x member => ih x member (absent.2 x ⟨member, ·⟩)
    rw [replace_node (Ne.symm absent.1), each, List.map_id']
  | _ =>
    unfold replace
    split
    · rename_i here
      exact absurd (beq_iff_eq.mpr here) absent
    · rfl

theorem mentions_replaceIdent {name : String} (e : Expr)
    (absent : replacement.mentions name = false) :
    (e.replaceIdent name replacement).expr.mentions name = false := by
  have everyName : e.NamesIn (insert name {n | n ≠ name}) := fun n _ => em (n = name)
  exact namesIn_others.mp (everyName.replaceIdent (namesIn_others.mpr absent))

end Expr

/-! ## Values -/

/-- A reading of everything an expression is built of: a leaf has a value or none, and an operator
or a function makes a value or none of those of its operands. A partial function of operand values
gives none wherever an operand has none; what becomes of such operands is left free here. -/
structure PartialAlgebra (V : Type*) where
  number : Numeral → Option V
  complex : ComplexNumeral → Option V
  ident : String → Option V
  call : NamedFunction → List (Option V) → Option V
  node : Operator → List (Option V) → Option V

namespace PartialAlgebra

variable {V : Type*}

mutual

def value? (A : PartialAlgebra V) : Expr → Option V
  | .number x => A.number x
  | .complex z => A.complex z
  | .ident name => A.ident name
  | .call f xs => A.call f (values A xs)
  | .node op xs => A.node op (values A xs)

def values (A : PartialAlgebra V) : List Expr → List (Option V)
  | [] => []
  | x :: xs => value? A x :: values A xs

end

/-- The reading with another value, or none, for one identifier. -/
def assign (A : PartialAlgebra V) (name : String) (v : Option V) : PartialAlgebra V :=
  { A with ident := Function.update A.ident name v }

variable {A : PartialAlgebra V} {target replacement : Expr}

theorem values_eq_map (xs : List Expr) : A.values xs = xs.map A.value? := by
  induction xs with
  | nil => rfl
  | cons x xs ih => rw [values, ih, List.map_cons]

theorem value?_call (f : NamedFunction) (xs : List Expr) :
    A.value? (.call f xs) = A.call f (xs.map A.value?) := by
  rw [value?, values_eq_map]

theorem value?_node (op : Operator) (xs : List Expr) :
    A.value? (.node op xs) = A.node op (xs.map A.value?) := by
  rw [value?, values_eq_map]

/-- Putting something of the same value, or as undefined, for a subtree keeps the value. -/
theorem value?_replace (same : A.value? target = A.value? replacement) (e : Expr) :
    A.value? (Expr.replace target replacement e).expr = A.value? e := by
  have whole : A.value? (Expr.replace target replacement target).expr = A.value? target := by
    rw [Expr.replace_self]
    exact same.symm
  induction e with
  | call f xs ih =>
    by_cases here : .call f xs = target
    · exact here ▸ whole
    · rw [Expr.replace_call here, value?_call, value?_call, List.map_map]
      exact congrArg _ (List.map_congr_left ih)
  | node op xs ih =>
    by_cases here : .node op xs = target
    · exact here ▸ whole
    · rw [Expr.replace_node here, value?_node, value?_node, List.map_map]
      exact congrArg _ (List.map_congr_left ih)
  | _ =>
    unfold Expr.replace
    split
    · rename_i here
      rw [here]
      exact same.symm
    · rfl

/-- With an expression put for an identifier, a tree has the value that it has with the value of the
expression for the identifier: what is put in is read as it is, and nothing in it is replaced. -/
theorem value?_replaceIdent (A : PartialAlgebra V) (name : String) (replacement e : Expr) :
    A.value? (e.replaceIdent name replacement).expr =
      (A.assign name (A.value? replacement)).value? e := by
  unfold Expr.replaceIdent
  induction e with
  | number x => rfl
  | complex z => rfl
  | ident other =>
    by_cases here : other = name
    · rw [here, Expr.replace_self]
      exact (Function.update_self name (A.value? replacement) A.ident).symm
    · have kept : Expr.replace (.ident name) replacement (.ident other) = .same (.ident other) :=
        if_neg (by simpa using here)
      rw [kept]
      exact (Function.update_of_ne here (A.value? replacement) A.ident).symm
  | call f xs ih =>
    rw [Expr.replace_call (by simp), value?_call, value?_call, List.map_map]
    exact congrArg _ (List.map_congr_left ih)
  | node op xs ih =>
    rw [Expr.replace_node (by simp), value?_node, value?_node, List.map_map]
    exact congrArg _ (List.map_congr_left ih)

end PartialAlgebra

namespace Expr

/-- Replacement is a congruence. It fires just where the target occurs, and leaves the tree as it is
where it does not fire. It keeps the value under every reading in which target and replacement have
the same; with an identifier for the target, the identifier is gone if the replacement lacks it, and
the value is that of the tree with the value of the replacement for the identifier. -/
theorem replace_congruence {V : Type*} (A : PartialAlgebra V) (target replacement e : Expr) :
    let result := replace target replacement e
    (result.changed = true ↔ target.occursIn e = true) ∧
    (result.changed = false → result.expr = e) ∧
    (A.value? target = A.value? replacement → A.value? result.expr = A.value? e) ∧
    ∀ name, target = .ident name →
      (replacement.mentions name = false → result.expr.mentions name = false) ∧
      A.value? result.expr = (A.assign name (A.value? replacement)).value? e := by
  refine ⟨replace_changed_iff target replacement e, fun still => ?_,
    fun same => PartialAlgebra.value?_replace same e, ?_⟩
  · rw [← Bool.not_eq_true, replace_changed_iff] at still
    exact replace_of_absent replacement still
  · rintro name rfl
    exact ⟨mentions_replaceIdent e, A.value?_replaceIdent name replacement e⟩

/-- Exact numerals, the identifier `x` with the value 3, and arithmetic of two operands without a
value over zero. -/
def partialArithmetic : PartialAlgebra ℚ where
  number := Numeral.rational?
  complex _ := none
  ident name := if name = "x" then some 3 else none
  call _ _ := none
  node op vs :=
    match op, vs with
    | .add, [some a, some b] => some (a + b)
    | .multiply, [some a, some b] => some (a * b)
    | .divide, [some a, some b] => if b = 0 then none else some (a / b)
    | _, _ => none

/-- In `(x + x) / (x + x)` the sum may be written as `2 * x`, an identifier that does not occur
changes nothing, and with `z` for `x` no `x` is left. -/
theorem replace_congruence_of_double :
    let twice := add (.ident "x") (.ident "x")
    let double := mul (ofInt 2) (.ident "x")
    let ratio := div twice twice
    partialArithmetic.value? twice = partialArithmetic.value? double ∧
      (replace twice double ratio).expr = div double double ∧
      partialArithmetic.value? (replace twice double ratio).expr =
        partialArithmetic.value? ratio ∧
      (replace (.ident "y") double ratio).changed = false ∧
      (replace (.ident "y") double ratio).expr = ratio ∧
      (ident "z").mentions "x" = false ∧
      (replace (.ident "x") (.ident "z") ratio).expr.mentions "x" = false ∧
      partialArithmetic.value? (replace (.ident "x") (.ident "z") ratio).expr =
        (partialArithmetic.assign "x" none).value? ratio := by
  intro twice double ratio
  have same : partialArithmetic.value? twice = partialArithmetic.value? double := by
    decide +kernel
  have still : (replace (.ident "y") double ratio).changed = false := by decide
  have absent : (ident "z").mentions "x" = false := rfl
  obtain ⟨-, -, sum, -⟩ := replace_congruence partialArithmetic twice double ratio
  obtain ⟨-, unchanged, -, -⟩ := replace_congruence partialArithmetic (.ident "y") double ratio
  obtain ⟨-, -, -, ident⟩ :=
    replace_congruence partialArithmetic (.ident "x") (.ident "z") ratio
  obtain ⟨gone, value⟩ := ident "x" rfl
  exact ⟨same, by decide, sum same, still, unchanged still, absent, gone absent, value⟩

end Expr

end SymbolicAlgebra
