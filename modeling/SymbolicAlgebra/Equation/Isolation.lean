import SymbolicAlgebra.Expr.Query
import SymbolicAlgebra.NormalForm

/-! Equations solved for a symbol by undoing the operations around it. -/
namespace SymbolicAlgebra

structure Equation where
  left : Expr
  right : Expr
deriving DecidableEq

namespace Expr

mutual

/-- How often an identifier stands in the tree. -/
def identCount (name : String) : Expr → Nat
  | .ident n => if n = name then 1 else 0
  | .node _ xs => identCountAll name xs
  | .call _ xs => identCountAll name xs
  | _ => 0

def identCountAll (name : String) : List Expr → Nat
  | [] => 0
  | x :: xs => identCount name x + identCountAll name xs

end

/-- The expressions that mention the symbol and those that do not. -/
def splitByMention (x : String) (es : List Expr) : List Expr × List Expr :=
  es.partition fun e => e.mentions x

end Expr

/-- The function that undoes another one. -/
def NamedFunction.inverse? : NamedFunction → Option NamedFunction
  | .circular r => some (.arcCircular r)
  | .arcCircular r => some (.circular r)
  | .hyperbolic .sin => some (.arcHyperbolic .sin)
  | .hyperbolic .cos => some (.arcHyperbolic .cos)
  | .hyperbolic .tan => some (.arcHyperbolic .tan)
  | .arcHyperbolic .sin => some (.hyperbolic .sin)
  | .arcHyperbolic .cos => some (.hyperbolic .cos)
  | .arcHyperbolic .tan => some (.hyperbolic .tan)
  | _ => none

namespace Equation

/-- The most operations that are undone. -/
def stepLimit : Nat := 64

/-- A sum split into the addends with the symbol and the others, moved across; a product or a
quotient split likewise by factors. A difference is first turned into a sum. -/
def splitSum (x : String) : Expr → Equation
  | .node .add xs =>
    let (bound, free) := Expr.splitByMention x xs
    ⟨.sum bound, .sub .zero (.sum free)⟩
  | .node .multiply xs =>
    let (bound, free) := Expr.splitByMention x xs
    ⟨.product bound, .div .one (.product free)⟩
  | .node .divide [n, d] =>
    if d.mentions x then ⟨.div n d, .zero⟩ else ⟨n, .div .one (.div .one d)⟩
  | e => ⟨e, .zero⟩

/-- An expression as an equation against zero (sums) or one (products): what holds the symbol on the
left, the remainder on the right. -/
def ofExpr (x : String) (e : Expr) : Equation :=
  if e.isNode .subtract then splitSum x (toSums e).expr else splitSum x e

/-- The cofactors of the symbol in terms that all have it as a factor; none for fewer than two. -/
def cofactors? (x : String) (terms : List Expr) : Option (List Expr) :=
  if terms.length < 2 then none
  else
    terms.mapM fun term =>
      (term.factors.findIdx? (Expr.isIdent x)).map fun i => .product (term.factors.eraseIdx i)

/-- Moves addends without the symbol to the right and factors it out of the rest. -/
def collectSymbol (simplify : Expr → Expr) (x : String) (eq : Equation) : Equation :=
  match eq.left.sumForm with
  | .node .add terms =>
    let (bound, free) := Expr.splitByMention x terms
    let right := if free.isEmpty then eq.right else simplify (.sub eq.right (.sum free))
    match cofactors? x bound with
    | some cs => ⟨.product [.ident x, .sum cs], right⟩
    | none => ⟨.sum bound, right⟩
  | _ => eq

/-- Undoes a binary operator around the only side that holds the symbol. -/
def undoBinary? (x : String) (op : Operator) (a b right : Expr) : Option Equation :=
  match op, a.mentions x, b.mentions x with
  | .subtract, true, false => some ⟨a, .sum [right, b]⟩
  | .subtract, false, true => some ⟨b, .sub a right⟩
  | .divide, true, false => some ⟨a, .product [right, b]⟩
  | .divide, false, true => some ⟨b, .div a right⟩
  | .power, true, false => some ⟨a, .pow right (.div .one b)⟩
  | .power, false, true =>
    some (if a.isIdent "e" then ⟨b, .ln right⟩ else ⟨b, .div (.ln right) (.ln a)⟩)
  | _, _, _ => none

/-- Undoes a call of one argument. -/
def undoFunction? (f : NamedFunction) (arg right : Expr) : Option Equation :=
  match f with
  | .ln => some ⟨arg, .pow (.ident "e") right⟩
  | .log => some ⟨arg, .pow (.ofInt 10) right⟩
  | .sqrt => some ⟨arg, .pow right (.ofInt 2)⟩
  | f => f.inverse?.map fun g => ⟨arg, .apply g right⟩

/-- Undoes the outermost operation on the left. -/
def undoOutermost? (x : String) (eq : Equation) : Option Equation :=
  match eq.left with
  | .node .add xs =>
    match Expr.splitByMention x xs with
    | ([e], free) => some ⟨e, .sub eq.right (.sum free)⟩
    | _ => none
  | .node .multiply xs =>
    match Expr.splitByMention x xs with
    | ([e], free) => some ⟨e, .div eq.right (.product free)⟩
    | _ => none
  | .node op [a, b] => undoBinary? x op a b eq.right
  | .call f [arg] => undoFunction? f arg eq.right
  | _ => none

/-- Undoes operations until the symbol stands alone, at most `steps` of them. -/
def undoAll? (simplify : Expr → Expr) (x : String) : Nat → Equation → Option Equation
  | 0, eq => if eq.left.isIdent x then some eq else none
  | steps + 1, eq =>
    if eq.left.isIdent x then some eq
    else
      match eq.undoOutermost? x with
      | some next => undoAll? simplify x steps ⟨next.left, simplify next.right⟩
      | none => none

/-- Whether the symbol is a factor of the expression, or of the numerator over a denominator without
it. -/
def hasPlainFactor (x : String) : Expr → Bool
  | .node .divide [n, d] => !d.mentions x && n.factors.any (Expr.isIdent x)
  | e => e.factors.any (Expr.isIdent x)

/-- Divides both sides by a symbol that is left on both. -/
def divideOut? (simplify : Expr → Expr) (x : String) (eq : Equation) : Option Equation :=
  if !eq.right.mentions x then some eq
  else if !hasPlainFactor x eq.right then none
  else
    let right := simplify (.div eq.right (.ident x))
    if right.mentions x then none else some ⟨simplify (.div eq.left (.ident x)), right⟩

/-- Isolates a symbol on the left, where it has to stand once after gathering. -/
def isolate? (simplify : Expr → Expr) (x : String) (eq : Equation) : Option Equation :=
  let gathered := eq.collectSymbol simplify x
  if gathered.left.identCount x = 1 then
    (gathered.undoAll? simplify x stepLimit).bind (divideOut? simplify x)
  else none

/-- Solves for a symbol, swapping the sides if it is only on the right; none if it stands on neither
side or cannot be isolated. -/
def solveUsing? (simplify : Expr → Expr) (x : String) (eq : Equation) : Option Equation :=
  if eq.left.mentions x then isolate? simplify x ⟨simplify eq.left, simplify eq.right⟩
  else if eq.right.mentions x then isolate? simplify x ⟨simplify eq.right, simplify eq.left⟩
  else none

def solve? (x : String) (eq : Equation) : Option Equation := eq.solveUsing? normalForm x

end Equation

end SymbolicAlgebra
