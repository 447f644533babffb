import SymbolicAlgebra.Factor.Content

/-! Four addends regrouped in pairs: `x³ + 2x² - 9x - 18` is `(x² - 9) * (x + 2)`. -/
namespace SymbolicAlgebra

/-- The factor that two terms share, one if there is none, and the sum that remains. -/
def sharedPairFactor (simplify : Expr → Expr) (a b : Expr) : Expr × Expr :=
  match sharedFactor? true [a, b] with
  | some f => (f.common, simplify (.sum f.rest))
  | none => (.one, simplify (.sum [a, b]))

/-- The product for one pairing, if both pairs leave the same sum up to its sign. -/
def groupPairs? (simplify : Expr → Expr) (a b c d : Expr) : Option (Expr × Expr) :=
  let (left, shared) := sharedPairFactor simplify a b
  let (right, other) := sharedPairFactor simplify c d
  if shared.isNumber then none
  else if shared = other then some (.sum [left, right], shared)
  else if shared = simplify other.negate then some (.sum [left, right.negate], shared)
  else none

/-- Factors a sum of four terms by the first pairing that works. -/
def factorGroups (simplify : Expr → Expr) (e : Expr) : Step :=
  match e.sumForm with
  | .node .add terms =>
    let (content, rest) :=
      match contentAndRest? terms with
      | some (content, rest) => ([Expr.number content], rest)
      | none => ([], terms)
    match rest with
    | [a, b, c, d] =>
      let group := groupPairs? simplify
      match group a b c d <|> group a c b d <|> group a d b c with
      | some (sum, shared) => .new (.product (content ++ [sum.differenceForm, shared]))
      | none => .same e
    | _ => .same e
  | _ => .same e

end SymbolicAlgebra
