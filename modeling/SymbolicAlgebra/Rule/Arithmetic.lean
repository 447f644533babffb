import SymbolicAlgebra.Product.LikeFactors
import SymbolicAlgebra.Product.Power
import SymbolicAlgebra.Sum.LikeTerms

/-! Arithmetic at every node: numerals are folded, like terms and like factors gathered. Bitwise
operators work in two's complement of unlimited width. -/
namespace SymbolicAlgebra

/-- The difference of two constants. -/
def simplifyDifference : Expr → Expr → Step
  | .number x, .number y => .new (.number (x.sub y))
  | a, b =>
    let constant (e : Expr) := if e.isNumeralFactor then e.complex? else none
    match constant a, constant b with
    | some z, some w =>
      let total := z.sub w
      .new (if total.isReal then .number total.re else .complex total)
    | _, _ => .same (.sub a b)

def simplifyQuotient (a b : Expr) : Step :=
  match Expr.constantQuotient? a b with
  | some e => .new e
  | none => .same (.div a b)

/-- The bits of `m` that `n` lacks. -/
def bitsWithout (m n : Nat) : Nat := m ^^^ (m &&& n)

def intAnd : Int → Int → Int
  | .ofNat m, .ofNat n => .ofNat (m &&& n)
  | .ofNat m, .negSucc n => .ofNat (bitsWithout m n)
  | .negSucc m, .ofNat n => .ofNat (bitsWithout n m)
  | .negSucc m, .negSucc n => .negSucc (m ||| n)

def intOr : Int → Int → Int
  | .ofNat m, .ofNat n => .ofNat (m ||| n)
  | .ofNat m, .negSucc n => .negSucc (bitsWithout n m)
  | .negSucc m, .ofNat n => .negSucc (bitsWithout m n)
  | .negSucc m, .negSucc n => .negSucc (m &&& n)

def intXor : Int → Int → Int
  | .ofNat m, .ofNat n => .ofNat (m ^^^ n)
  | .ofNat m, .negSucc n => .negSucc (m ^^^ n)
  | .negSucc m, .ofNat n => .negSucc (m ^^^ n)
  | .negSucc m, .negSucc n => .ofNat (m ^^^ n)

/-- The largest shift to the left that is carried out. -/
def maxLeftShift : Nat := 4096

/-- The value of an operator on two or more integers. The bitwise operators take all of them, the
remainder (with the sign of the dividend) and the shifts the first two. -/
def integerResult? (op : Operator) : List Int → Option Int
  | a :: b :: rest =>
    match op with
    | .bitAnd => some ((b :: rest).foldl intAnd a)
    | .bitOr => some ((b :: rest).foldl intOr a)
    | .bitXor => some ((b :: rest).foldl intXor a)
    | .modulus => if b = 0 then none else some (a.tmod b)
    | .leftShift => if 0 ≤ b ∧ b ≤ maxLeftShift then some (a * Nat.pow 2 b.toNat) else none
    | .rightShift => if 0 ≤ b ∧ b < 18446744073709551616 then some (a >>> b.toNat) else none
    | _ => none
  | _ => none

def simplifyIntegers (op : Operator) (xs : List Expr) : Step :=
  match (xs.mapM fun (x : Expr) => x.number?.bind Numeral.integer?).bind (integerResult? op) with
  | some n => .new (.ofInt n)
  | none => .same (.node op xs)

def collectNode : Expr → Step
  | .node .add xs => collectSum xs
  | .node .multiply xs => collectProduct xs
  | .node .power [a, b] => simplifyPower a b
  | .node .power xs => .same (.node .power xs)
  | .node .subtract [a, b] => simplifyDifference a b
  | .node .subtract xs => .same (.node .subtract xs)
  | .node .divide [a, b] => simplifyQuotient a b
  | .node .divide xs => .same (.node .divide xs)
  | .node op xs => simplifyIntegers op xs
  | e => .same e

/-- Folds numerals and gathers like terms and like factors. -/
def collectLike (e : Expr) : Step := everywhere collectNode e

end SymbolicAlgebra
