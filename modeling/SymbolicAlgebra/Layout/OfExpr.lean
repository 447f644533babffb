import SymbolicAlgebra.Layout.Grid
import SymbolicAlgebra.Text.Linear

/-! The layout of an expression in two dimensions: quotients with a rule, powers raised. -/
namespace SymbolicAlgebra

namespace Grid

/-- The tallest operand that goes without brackets. -/
def maxPlainHeight : Nat := 3

/-- An operand in brackets where it needs them or is tall. -/
def operand (brackets : Bool) (g : Grid) : Grid :=
  if brackets || maxPlainHeight < g.height then g.parenthesized else g

/-- The grids with a text between them. -/
def separated (separator : String) (parts : List Grid) : Grid :=
  beside (parts.intersperse (ofText separator))

end Grid

namespace Expr

/-- Whether a factor needs brackets; a quotient stands for itself by its rule. -/
def factorBrackets (e : Expr) : Bool := e.binding.looser .sign && !e.isNode .divide

/-- Whether an exponent goes in brackets: one that is tall or binds loosely, unless a power. -/
def exponentBrackets (e : Expr) (g : Grid) : Bool :=
  !e.isNode .power && (1 < g.height || e.binding.looser .atom)

def productGrid (operands : List Expr) (grids : List Grid) : Grid :=
  match directFactor? operands, operands, grids with
  | some (x, _), _, [_, g] => .beside [.ofText (directText x), g]
  | _, operands, grids =>
    match isOpposite operands, operands, grids with
    | true, [_, e], [_, g] => .beside [.ofText "-", .operand e.factorBrackets g]
    | _, operands, grids =>
      .separated " * " (List.zipWith Grid.operand (operands.map factorBrackets) grids)

/-- The layout of a node from its operands and their layouts. -/
def nodeGrid (op : Operator) (operands : List Expr) (grids : List Grid) : Grid :=
  match op, operands, grids with
  | .add, operands, grids =>
    .separated " + " (List.zipWith Grid.operand (addendsBrackets operands) grids)
  | .subtract, [a, b], [f, g] =>
    .beside
      [.operand (a.binding.looser .sum) f, .ofText " - ",
        .operand (b.binding.noTighter .sum && !b.isNode .divide) g]
  | .multiply, operands, grids => productGrid operands grids
  | .divide, [_, _], [f, g] => .fraction f g
  | .power, [a, b], [f, g] =>
    .superscript (.operand (a.binding.looser .atom) f)
      (if exponentBrackets b g then g.parenthesized else g)
  | op, operands, grids =>
    .separated (" " ++ op.symbol ++ " ")
      (List.zipWith Grid.operand (operands.map fun e => e.binding.noTighter op.binding) grids)

/-- A call: the function and its arguments in brackets. -/
def callGrid (f : NamedFunction) (grids : List Grid) : Grid :=
  let args := if grids.isEmpty then .ofText "" else Grid.separated ", " grids
  .beside [.ofText f.name, args.parenthesized]

mutual

/-- The layout of an expression in two dimensions. -/
def layout : Expr → Grid
  | .call f xs => callGrid f (layoutAll xs)
  | .node op xs => nodeGrid op xs (layoutAll xs)
  | e => .ofText e.text

def layoutAll : List Expr → List Grid
  | [] => []
  | x :: xs => layout x :: layoutAll xs

end

end Expr

end SymbolicAlgebra
