import SymbolicAlgebra.Text.Binding

/-! The text of an expression on one line. -/
namespace SymbolicAlgebra

def bracketed (brackets : Bool) (text : String) : String :=
  if brackets then "(" ++ text ++ ")" else text

/-- The texts with `separator` between them. -/
def separatedBy (separator : String) : List String → String
  | [] => ""
  | [text] => text
  | text :: texts => text ++ separator ++ separatedBy separator texts

namespace Expr

/-- Two operands with a sign between them, each in brackets where its rule says; any other number of
operands stands without brackets. -/
def binaryText (sign : String) (left right : Expr → Bool) (operands : List Expr)
    (texts : List String) : String :=
  match operands, texts with
  | [a, b], [s, t] => bracketed (left a) s ++ sign ++ bracketed (right b) t
  | _, texts => separatedBy sign texts

/-- The text of a node from its operands and their texts. -/
def nodeText (op : Operator) (operands : List Expr) (texts : List String) : String :=
  match op with
  | .add => separatedBy " + " (List.zipWith bracketed (addendsBrackets operands) texts)
  | .multiply =>
    match directFactor? operands, operands, texts with
    | some (x, _), _, [_, t] => directText x ++ t
    | _, [a, b], [s, t] =>
      if isOpposite [a, b] then "-" ++ bracketed (b.binding.looser .sign) t
      else bracketed (a.binding.looser .sign) s ++ " * " ++ bracketed (b.binding.looser .sign) t
    | _, _, _ =>
      let loose := operands.map fun e => e.binding.looser .sign
      separatedBy " * " (List.zipWith bracketed loose texts)
  | .subtract =>
    binaryText " - " (fun a => a.binding.looser .sum) (fun b => b.binding.noTighter .sum)
      operands texts
  | .divide | .modulus =>
    binaryText (" " ++ op.symbol ++ " ") (fun a => a.binding.looser .sign)
      (fun b => b.binding.looser .sign) operands texts
  | .power =>
    binaryText "^" (fun a => a.binding.looser .atom) (fun b => b.binding.looser .atom)
      operands texts
  | .leftShift | .rightShift =>
    binaryText (" " ++ op.symbol ++ " ") (fun a => a.binding.looser .shift)
      (fun b => b.binding.noTighter .shift) operands texts
  | .bitAnd | .bitOr | .bitXor =>
    let brackets := operands.map fun e => e.binding.looser op.binding || e.isNode op
    separatedBy (" " ++ op.symbol ++ " ") (List.zipWith bracketed brackets texts)

mutual

/-- The expression on one line, with no more brackets than reading it back needs. -/
def text : Expr → String
  | .number x => x.text
  | .complex z => z.text
  | .ident name => name
  | .call f xs => f.name ++ "(" ++ separatedBy ", " (textAll xs) ++ ")"
  | .node op xs => nodeText op xs (textAll xs)

def textAll : List Expr → List String
  | [] => []
  | x :: xs => text x :: textAll xs

end

end Expr

end SymbolicAlgebra
