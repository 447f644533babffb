import SymbolicAlgebra.Expr.Basic

/-! What a rule makes of an expression, and a rule applied at every node of a tree, children first. -/
namespace SymbolicAlgebra

/-- The expression that a rule leaves, and whether it fired. A rule may fire and leave the
expression as it was; one that does not fire may still leave another form of it. -/
structure Step where
  expr : Expr
  changed : Bool
deriving DecidableEq

namespace Step

/-- The rule did not fire. -/
def same (e : Expr) : Step := ⟨e, false⟩

/-- The rule fired. -/
def new (e : Expr) : Step := ⟨e, true⟩

end Step

mutual

/-- Applies the rule to the children, then to what they leave. -/
def everywhere (rule : Expr → Step) : Expr → Step
  | .node op xs =>
    let below := everywhereAll rule xs
    let here := rule (.node op below.1)
    ⟨here.expr, below.2 || here.changed⟩
  | .call f xs =>
    let below := everywhereAll rule xs
    let here := rule (.call f below.1)
    ⟨here.expr, below.2 || here.changed⟩
  | e => rule e

def everywhereAll (rule : Expr → Step) : List Expr → List Expr × Bool
  | [] => ([], false)
  | x :: xs =>
    let head := everywhere rule x
    let tail := everywhereAll rule xs
    (head.expr :: tail.1, head.changed || tail.2)

end

end SymbolicAlgebra
