import SymbolicAlgebra.Expr.Basic

/-! Size, identifiers and occurrences. -/
namespace SymbolicAlgebra

namespace Expr

mutual

/-- The number of nodes, calls and leaves. -/
def size : Expr → Nat
  | .node _ xs => 1 + sizeAll xs
  | .call _ xs => 1 + sizeAll xs
  | _ => 1

def sizeAll : List Expr → Nat
  | [] => 0
  | x :: xs => size x + sizeAll xs

end

theorem size_pos (e : Expr) : 0 < e.size := by
  cases e <;> simp only [size] <;> omega

theorem size_product_le (xs : List Expr) : (product xs).size ≤ 1 + sizeAll xs := by
  match xs with
  | [] => simp [product, one, ofInt, size, sizeAll]
  | [x] => simp [product, sizeAll]
  | _ :: _ :: _ => exact Nat.le_refl _

theorem sizeAll_partition (p : Expr → Bool) (xs : List Expr) :
    sizeAll (xs.filter p) + sizeAll (xs.filter fun x => !p x) = sizeAll xs := by
  induction xs with
  | nil => rfl
  | cons x xs ih =>
    cases h : p x <;> simp only [List.filter_cons, h, Bool.not_false, Bool.not_true, if_true,
      Bool.false_eq_true, if_false, sizeAll] <;> omega

mutual

/-- Whether the identifier occurs. -/
def mentions (name : String) : Expr → Bool
  | .ident n => n == name
  | .node _ xs => anyMentions name xs
  | .call _ xs => anyMentions name xs
  | _ => false

def anyMentions (name : String) : List Expr → Bool
  | [] => false
  | x :: xs => mentions name x || anyMentions name xs

end

mutual

/-- Whether an identifier other than a named constant occurs. -/
def hasUnknown : Expr → Bool
  | .ident n => !isNamedConstant n
  | .node _ xs => anyHasUnknown xs
  | .call _ xs => anyHasUnknown xs
  | _ => false

def anyHasUnknown : List Expr → Bool
  | [] => false
  | x :: xs => hasUnknown x || anyHasUnknown xs

end

mutual

/-- Whether `target` is the expression or lies in it. -/
def occursIn (target : Expr) : Expr → Bool
  | .node op xs => .node op xs == target || occursInAny target xs
  | .call f xs => .call f xs == target || occursInAny target xs
  | e => e == target

def occursInAny (target : Expr) : List Expr → Bool
  | [] => false
  | x :: xs => occursIn target x || occursInAny target xs

end

mutual

/-- How often the identifier occurs; its power to a positive integer counts that many times. -/
def occurrences (name : String) : Expr → Nat
  | .ident n => if n = name then 1 else 0
  | .node .power [base, exponent] =>
    if base.isIdent name then
      match exponent.number?.bind Numeral.int64? with
      | some (.ofNat (n + 1)) => n + 1
      | _ => 1 + occurrences name exponent
    else occurrences name base + occurrences name exponent
  | .node _ xs => totalOccurrences name xs
  | .call _ xs => totalOccurrences name xs
  | _ => 0

def totalOccurrences (name : String) : List Expr → Nat
  | [] => 0
  | x :: xs => occurrences name x + totalOccurrences name xs

end

/-- Adds a name to names in ascending order without repetitions. -/
def insertName (name : String) : List String → List String
  | [] => [name]
  | n :: ns =>
    if name < n then name :: n :: ns
    else if name = n then n :: ns
    else n :: insertName name ns

mutual

/-- The names of `seen` and the identifiers that occur. -/
def collectNames (seen : List String) : Expr → List String
  | .ident n => insertName n seen
  | .node _ xs => collectAllNames seen xs
  | .call _ xs => collectAllNames seen xs
  | _ => seen

def collectAllNames (seen : List String) : List Expr → List String
  | [] => seen
  | x :: xs => collectAllNames (collectNames seen x) xs

end

/-- The identifiers that occur, in ascending order. -/
def identifiers (e : Expr) : List String := collectNames [] e

/-- The identifiers other than named constants, in ascending order. -/
def unknowns (e : Expr) : List String := e.identifiers.filter fun name => !isNamedConstant name

/-- The unknown, if there is just one. -/
def onlyUnknown? (e : Expr) : Option String :=
  match e.unknowns with
  | [name] => some name
  | _ => none

end Expr

end SymbolicAlgebra
