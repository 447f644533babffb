import SymbolicAlgebra.Rule.Everywhere

/-! The replacement of a subtree wherever it occurs. -/
namespace SymbolicAlgebra

namespace Expr

mutual

/-- Puts `replacement` for every occurrence of `target`, from the root down; what was put in is not
searched again. -/
def replace (target replacement : Expr) : Expr → Step
  | .node op xs =>
    if .node op xs = target then .new replacement
    else
      let inner := replaceAll target replacement xs
      ⟨.node op inner.1, inner.2⟩
  | .call f xs =>
    if .call f xs = target then .new replacement
    else
      let inner := replaceAll target replacement xs
      ⟨.call f inner.1, inner.2⟩
  | e => if e = target then .new replacement else .same e

def replaceAll (target replacement : Expr) : List Expr → List Expr × Bool
  | [] => ([], false)
  | x :: xs =>
    let head := replace target replacement x
    let tail := replaceAll target replacement xs
    (head.expr :: tail.1, head.changed || tail.2)

end

/-- Puts `replacement` for every occurrence of an identifier. -/
def replaceIdent (e : Expr) (name : String) (replacement : Expr) : Step :=
  replace (.ident name) replacement e

end Expr

end SymbolicAlgebra
