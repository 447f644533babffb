import SymbolicAlgebra.Expr.Sign
import SymbolicAlgebra.Text.Token

/-! Reading expressions from infix text.

Sums and products are flat, subtraction, quotient and remainder binary. A numeral directly before a
name or a bracket multiplies the power that follows (`3x^2`), and `2i` is an imaginary numeral. -/
namespace SymbolicAlgebra

/-- Reads an expression off the front of a token list. -/
abbrev Reader := List Token → Option (Expr × List Token)

namespace Reader

/-- A run of operands as one expression: a single one stands for itself. -/
def ofRun (op : Operator) : List Expr → Expr
  | [e] => e
  | run => .node op run

/-- At most `count` further operands, each after the operator `op`. -/
def moreOperands (op : Operator) (read : Reader) :
    Nat → List Token → Option (List Expr × List Token)
  | count + 1, .op o :: ts =>
    if o = op then do
      let (e, ts) ← read ts
      let (es, ts) ← moreOperands op read count ts
      some (e :: es, ts)
    else some ([], .op o :: ts)
  | _, ts => some ([], ts)

/-- Operands joined by one operator, as a flat node. -/
def flatChain (op : Operator) (read : Reader) : Reader := fun ts => do
  let (e, ts) ← read ts
  let (es, ts) ← moreOperands op read ts.length ts
  some (ofRun op (e :: es), ts)

/-- At most `count` shifts of `left`, from the left. -/
def moreShifts (read : Reader) : Nat → Expr → Reader
  | count + 1, left, .op .leftShift :: ts => do
    let (e, ts) ← read ts
    moreShifts read count (.node .leftShift [left, e]) ts
  | count + 1, left, .op .rightShift :: ts => do
    let (e, ts) ← read ts
    moreShifts read count (.node .rightShift [left, e]) ts
  | _, left, ts => some (left, ts)

/-- At most `count` further terms after a run of addends; a subtraction makes the run so far its
left side. -/
def moreAddends (read : Reader) : Nat → List Expr → Reader
  | count + 1, run, .op .add :: ts => do
    let (e, ts) ← read ts
    moreAddends read count (run ++ [e]) ts
  | count + 1, run, .op .subtract :: ts => do
    let (e, ts) ← read ts
    moreAddends read count [.sub (ofRun .add run) e] ts
  | _, run, ts => some (ofRun .add run, ts)

/-- At most `count` further factors after a run of factors; a quotient or remainder makes the run so
far its left side. -/
def moreFactors (read : Reader) : Nat → List Expr → Reader
  | count + 1, run, .op .multiply :: ts => do
    let (e, ts) ← read ts
    moreFactors read count (run ++ [e]) ts
  | count + 1, run, .op .divide :: ts => do
    let (e, ts) ← read ts
    moreFactors read count [.div (ofRun .multiply run) e] ts
  | count + 1, run, .op .modulus :: ts => do
    let (e, ts) ← read ts
    moreFactors read count [.node .modulus [ofRun .multiply run, e]] ts
  | _, run, ts => some (ofRun .multiply run, ts)

def factors (read : Reader) : Reader := fun ts => do
  let (e, ts) ← read ts
  moreFactors read ts.length [e] ts

def addends (read : Reader) : Reader := fun ts => do
  let (e, ts) ← factors read ts
  moreAddends (factors read) ts.length [e] ts

def shifts (read : Reader) : Reader := fun ts => do
  let (e, ts) ← addends read ts
  moreShifts (addends read) ts.length e ts

/-- A whole expression over signed operands: the operators from the loosest `|` down to `*`. -/
def expression (read : Reader) : Reader :=
  flatChain .bitOr (flatChain .bitXor (flatChain .bitAnd (shifts read)))

/-- At most `count` further arguments, each after a comma, and the closing bracket. -/
def moreArguments (read : Reader) : Nat → List Token → Option (List Expr × List Token)
  | _, .closeParen :: ts => some ([], ts)
  | count + 1, .comma :: ts => do
    let (e, ts) ← expression read ts
    let (es, ts) ← moreArguments read count ts
    some (e :: es, ts)
  | _, _ => none

/-- The arguments of a call after its opening bracket. -/
def arguments (read : Reader) : List Token → Option (List Expr × List Token)
  | .closeParen :: ts => some ([], ts)
  | ts => do
    let (e, ts) ← expression read ts
    let (es, ts) ← moreArguments read ts.length ts
    some (e :: es, ts)

/-- An expression and its closing bracket. -/
def bracketed (read : Reader) : Reader := fun ts => do
  match ← expression read ts with
  | (e, .closeParen :: ts) => some (e, ts)
  | _ => none

/-- The identifier `i` alone is the imaginary unit. -/
def ofName (name : String) : Expr := if name = "i" then .complex ⟨.zero, .one⟩ else .ident name

mutual

/-- A minus sign binds looser than a power. -/
def signed : Nat → Reader
  | depth + 1, .op .subtract :: ts => do
    let (e, ts) ← signed depth ts
    some (e.negate, ts)
  | depth + 1, ts => power depth ts
  | 0, _ => none

/-- An exponent takes a sign and further powers. -/
def power : Nat → Reader
  | depth + 1, ts => do
    match ← primary depth ts with
    | (base, .op .power :: ts) =>
      let (exponent, ts) ← signed depth ts
      some (.pow base exponent, ts)
    | read => some read
  | 0, _ => none

def primary : Nat → Reader
  | depth + 1, .openParen :: ts => bracketed (signed depth) ts
  | depth + 1, .number x :: .name n :: ts =>
    if n = "i" then some (.complex ⟨.zero, .exact x⟩, ts)
    else do
      let (e, ts) ← power depth (.name n :: ts)
      some (.mul (.number (.exact x)) e, ts)
  | depth + 1, .number x :: .openParen :: ts => do
    let (e, ts) ← power depth (.openParen :: ts)
    some (.mul (.number (.exact x)) e, ts)
  | _ + 1, .number x :: ts => some (.number (.exact x), ts)
  | depth + 1, .name n :: .openParen :: ts => do
    let (args, ts) ← arguments (signed depth) ts
    some (.call (.ofName n) args, ts)
  | _ + 1, .name n :: ts => some (ofName n, ts)
  | _, _ => none

end

end Reader

/-- Reads all of the tokens. One token leads at most three steps down. -/
def Expr.ofTokens? (ts : List Token) : Option Expr :=
  match Reader.expression (Reader.signed (3 * ts.length + 3)) ts with
  | some (e, []) => some e
  | _ => none

/-- Reads an expression; none if the text is not one. -/
def Expr.parse? (text : String) : Option Expr := (Token.ofChars? text.toList).bind Expr.ofTokens?

end SymbolicAlgebra
