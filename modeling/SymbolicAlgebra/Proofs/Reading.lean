import Mathlib.Algebra.BigOperators.Group.List.Basic
import Mathlib.Algebra.BigOperators.Ring.List
import Mathlib.Algebra.Field.Basic
import Mathlib.Data.Rat.Cast.CharZero
import Mathlib.Tactic.FieldSimp
import Mathlib.Tactic.Ring
import SymbolicAlgebra.Expr.Basic
import SymbolicAlgebra.Rule.Everywhere

/-! The values of expressions in a field, and what it means to keep them.

The evaluation is partial: there is no division by zero, exponents are integers, zero has no negative
power, and `b ^ 0` is one. A tree has a value only if every part of it has one. -/
namespace SymbolicAlgebra

/-- The value of an exact numeral; no other numeral has one. -/
def Numeral.val (K : Type*) [Field K] : Numeral → K
  | .exact r => r
  | _ => 0

/-- How identifiers, calls and the operators without a field operation are read. -/
structure Reading (K : Type*) where
  ident : String → K
  /-- The imaginary unit, where there is one. -/
  unit? : Option K
  call : NamedFunction → List K → Option K
  /-- The remainder, the bitwise operators and the shifts. -/
  integral : Operator → List K → Option K

namespace Reading

section Values

variable {K : Type*} [Field K]

/-- The power of `x` to an exponent that is an integer. -/
noncomputable def power (x y : K) : K :=
  open Classical in if h : ∃ n : ℤ, (n : K) = y then x ^ h.choose else 0

/-- What an operator makes of the values of its operands, where `Applies` holds. -/
noncomputable def operate (R : Reading K) : Operator → List K → K
  | .add, vs => vs.sum
  | .multiply, vs => vs.prod
  | .subtract, [x, y] => x - y
  | .divide, [x, y] => x / y
  | .power, [x, y] => power x y
  | op, vs => (R.integral op vs).getD 0

/-- Whether an operator has a value on these operands. -/
def Applies (R : Reading K) : Operator → List K → Prop
  | .add, _ | .multiply, _ => True
  | .subtract, [_, _] => True
  | .divide, [_, y] => y ≠ 0
  | .power, [x, y] => ∃ n : ℤ, (n : K) = y ∧ (x = 0 → 0 ≤ n)
  | .subtract, _ | .divide, _ | .power, _ => False
  | op, vs => (R.integral op vs).isSome

mutual

/-- The value of an expression, where `Defined` holds. -/
noncomputable def val (R : Reading K) : Expr → K
  | .number x => x.val K
  | .complex z => z.re.val K + z.im.val K * R.unit?.getD 0
  | .ident name => R.ident name
  | .call f xs => (R.call f (vals R xs)).getD 0
  | .node op xs => R.operate op (vals R xs)

noncomputable def vals (R : Reading K) : List Expr → List K
  | [] => []
  | x :: xs => val R x :: vals R xs

end

mutual

/-- Whether an expression has a value. -/
def Defined (R : Reading K) : Expr → Prop
  | .number x => x.isExact
  | .complex z => R.unit?.isSome ∧ z.re.isExact ∧ z.im.isExact
  | .ident _ => True
  | .call f xs => AllDefined R xs ∧ (R.call f (R.vals xs)).isSome
  | .node op xs => AllDefined R xs ∧ R.Applies op (R.vals xs)

def AllDefined (R : Reading K) : List Expr → Prop
  | [] => True
  | x :: xs => Defined R x ∧ AllDefined R xs

end

/-- Where `a` has a value, `b` has the same one. -/
def Keeps (R : Reading K) (a b : Expr) : Prop := R.Defined a → R.Defined b ∧ R.val b = R.val a

/-- Identifiers are numbers, and nothing but numerals, identifiers and the operations of a field has
a value. -/
def ofAssignment (ident : String → K) : Reading K := ⟨ident, none, fun _ _ => none, fun _ _ => none⟩

end Values

section Equations

variable {K : Type*} [Field K] {R : Reading K}

theorem vals_eq_map (xs : List Expr) : R.vals xs = xs.map R.val := by
  induction xs with
  | nil => rfl
  | cons x xs ih => rw [vals, ih, List.map_cons]

theorem allDefined_iff (xs : List Expr) : R.AllDefined xs ↔ ∀ x ∈ xs, R.Defined x := by
  induction xs with
  | nil => simp [AllDefined]
  | cons x xs ih => simp [AllDefined, ih]

@[simp] theorem val_exact (r : Rat) : R.val (.number (.exact r)) = r := rfl

@[simp] theorem val_number (x : Numeral) : R.val (.number x) = x.val K := rfl

@[simp] theorem val_complex (z : ComplexNumeral) :
    R.val (.complex z) = z.re.val K + z.im.val K * R.unit?.getD 0 := rfl

@[simp] theorem val_ident (name : String) : R.val (.ident name) = R.ident name := rfl

@[simp] theorem val_call (f : NamedFunction) (xs : List Expr) :
    R.val (.call f xs) = (R.call f (xs.map R.val)).getD 0 := by
  rw [val, vals_eq_map]

theorem val_node (op : Operator) (xs : List Expr) :
    R.val (.node op xs) = R.operate op (xs.map R.val) := by
  rw [val, vals_eq_map]

@[simp] theorem val_node_add (xs : List Expr) : R.val (.node .add xs) = (xs.map R.val).sum := by
  rw [val_node, operate]

@[simp] theorem val_node_multiply (xs : List Expr) :
    R.val (.node .multiply xs) = (xs.map R.val).prod := by
  rw [val_node, operate]

@[simp] theorem val_node_subtract (a b : Expr) :
    R.val (.node .subtract [a, b]) = R.val a - R.val b := rfl

@[simp] theorem val_node_divide (a b : Expr) :
    R.val (.node .divide [a, b]) = R.val a / R.val b := rfl

@[simp] theorem val_node_power (a b : Expr) :
    R.val (.node .power [a, b]) = power (R.val a) (R.val b) := rfl

@[simp] theorem defined_number (x : Numeral) : R.Defined (.number x) ↔ x.isExact = true := Iff.rfl

@[simp] theorem defined_complex (z : ComplexNumeral) :
    R.Defined (.complex z) ↔
      R.unit?.isSome = true ∧ z.re.isExact = true ∧ z.im.isExact = true := Iff.rfl

@[simp] theorem defined_ident (name : String) : R.Defined (.ident name) := trivial

@[simp] theorem defined_call (f : NamedFunction) (xs : List Expr) :
    R.Defined (.call f xs) ↔
      (∀ x ∈ xs, R.Defined x) ∧ (R.call f (xs.map R.val)).isSome = true := by
  rw [Defined, allDefined_iff, vals_eq_map]

theorem defined_node (op : Operator) (xs : List Expr) :
    R.Defined (.node op xs) ↔ (∀ x ∈ xs, R.Defined x) ∧ R.Applies op (xs.map R.val) := by
  rw [Defined, allDefined_iff, vals_eq_map]

@[simp] theorem defined_node_add (xs : List Expr) :
    R.Defined (.node .add xs) ↔ ∀ x ∈ xs, R.Defined x := by
  simp [defined_node, Applies]

@[simp] theorem defined_node_multiply (xs : List Expr) :
    R.Defined (.node .multiply xs) ↔ ∀ x ∈ xs, R.Defined x := by
  simp [defined_node, Applies]

@[simp] theorem defined_node_subtract (a b : Expr) :
    R.Defined (.node .subtract [a, b]) ↔ R.Defined a ∧ R.Defined b := by
  simp [defined_node, Applies]

@[simp] theorem defined_node_divide (a b : Expr) :
    R.Defined (.node .divide [a, b]) ↔ R.Defined a ∧ R.Defined b ∧ R.val b ≠ 0 := by
  simp [defined_node, Applies, and_assoc]

@[simp] theorem defined_node_power (a b : Expr) :
    R.Defined (.node .power [a, b]) ↔
      R.Defined a ∧ R.Defined b ∧ ∃ n : ℤ, (n : K) = R.val b ∧ (R.val a = 0 → 0 ≤ n) := by
  simp [defined_node, Applies, and_assoc]

end Equations

namespace Keeps

variable {K : Type*} [Field K] {R : Reading K} {a b c : Expr}

@[refl] theorem refl (a : Expr) : R.Keeps a a := fun h => ⟨h, rfl⟩

theorem trans (first : R.Keeps a b) (second : R.Keeps b c) : R.Keeps a c := fun h =>
  ⟨(second (first h).1).1, (second (first h).1).2.trans (first h).2⟩

end Keeps

end Reading

end SymbolicAlgebra
