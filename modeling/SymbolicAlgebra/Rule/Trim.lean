import SymbolicAlgebra.Rule.Everywhere

/-! Identities and absorbing operands: `x + 0`, `x * 1`, `x * 0`, `x - x`, `x / 1`, `x / x`,
`x ^ 1`, `x ^ 0`, `1 ^ x` and their bitwise counterparts. A zero divisor leaves the undefined number
over one. -/
namespace SymbolicAlgebra

/-- The quotient that stands for a division by zero. -/
def undefinedQuotient : Expr := .div .nan .one

/-- A bitwise node: zero for no operand, the operand itself for one. -/
def bitwise (op : Operator) : List Expr → Expr
  | [] => .zero
  | [x] => x
  | xs => .node op xs

/-- The operands without later repetitions. -/
def dropRepeats : List Expr → List Expr
  | [] => []
  | x :: xs => x :: (dropRepeats xs).filter (· != x)

/-- Takes equal operands out in pairs; `kept` holds those still alone. -/
def dropPairs (kept : List Expr) : List Expr → List Expr
  | [] => kept
  | x :: xs => if x ∈ kept then dropPairs (kept.erase x) xs else dropPairs (kept ++ [x]) xs

/-- Rebuilds a node from what is left of its operands, changed if some are gone. -/
def rebuilt (build : List Expr → Expr) (before after : List Expr) : Step :=
  ⟨build after, after.length != before.length⟩

def trimProduct (xs : List Expr) : Step :=
  if !xs.any Expr.isNaN && xs.any Expr.isZero then .new .zero
  else rebuilt .product xs (xs.filter fun x => !x.isOne)

def trimBitAnd (xs : List Expr) : Step :=
  if xs.any Expr.isZero then .new .zero
  else
    let kept := dropRepeats xs
    ⟨bitwise .bitAnd kept, kept.length != xs.length || kept.length == 1⟩

def trimDifference (a b : Expr) : Step :=
  if b.isZero then .new a
  else if a = b ∧ !a.isNaN then .new .zero
  else .same (.sub a b)

def trimQuotient (a b : Expr) : Step :=
  if b.isZero then .new undefinedQuotient
  else if a.isNaN then .same (.div a b)
  else if b.isOne then .new a
  else if a.isZero ∧ !b.isNaN then .new .zero
  else if a = b then .new .one
  else .same (.div a b)

def trimPower (a b : Expr) : Step :=
  if b.isOne then .new a
  else if b.isZero ∧ !a.isNaN then .new .one
  else if a.isOne then .new .one
  else .same (.pow a b)

def trimShift (op : Operator) (a b : Expr) : Step :=
  if b.isZero then .new a
  else if a.isZero then .new .zero
  else .same (.node op [a, b])

def trimNode : Expr → Step
  | .node .add xs => rebuilt .sum xs (xs.filter fun x => !x.isZero)
  | .node .multiply xs => trimProduct xs
  | .node .bitOr xs => rebuilt (bitwise .bitOr) xs ((dropRepeats xs).filter fun x => !x.isZero)
  | .node .bitAnd xs => trimBitAnd xs
  | .node .bitXor xs => rebuilt (bitwise .bitXor) xs ((dropPairs [] xs).filter fun x => !x.isZero)
  | .node .subtract [a, b] => trimDifference a b
  | .node .divide [a, b] => trimQuotient a b
  | .node .power [a, b] => trimPower a b
  | .node .leftShift [a, b] => trimShift .leftShift a b
  | .node .rightShift [a, b] => trimShift .rightShift a b
  | e => .same e

/-- Removes identities and absorbing operands. -/
def trim (e : Expr) : Step := everywhere trimNode e

end SymbolicAlgebra
