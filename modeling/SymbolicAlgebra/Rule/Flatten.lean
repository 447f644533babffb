import SymbolicAlgebra.Rule.Everywhere

/-! Nested nodes of an associative operator become one flat node: `(a + b) + c` is `a + b + c`. -/
namespace SymbolicAlgebra

/-- The value of a node without operands. -/
def Operator.unit : Operator → Expr
  | .multiply => .ofInt 1
  | .bitAnd => .ofInt (-1)
  | _ => .ofInt 0

/-- The operands with those of nested nodes of the same operator in their place. -/
def splice (op : Operator) : List Expr → List Expr
  | [] => []
  | .node o inner :: xs => if o = op then inner ++ splice op xs else .node o inner :: splice op xs
  | x :: xs => x :: splice op xs

/-- A flat node; one left with a single operand is replaced by it. -/
def flattenNode : Expr → Step
  | .node op xs =>
    if op.isAssociative then
      match splice op xs with
      | [] => .new op.unit
      | [x] => .new x
      | flat => ⟨.node op flat, xs.any fun x => x.isNode op⟩
    else .same (.node op xs)
  | e => .same e

/-- Splices nested nodes of an associative operator into their parent. -/
def flatten (e : Expr) : Step := everywhere flattenNode e

end SymbolicAlgebra
