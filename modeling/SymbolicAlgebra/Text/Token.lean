import SymbolicAlgebra.Expr.Operator
import SymbolicAlgebra.Text.Letter

/-! The tokens of expression text. -/
namespace SymbolicAlgebra

inductive Token where
  | number (value : Rat)
  | name (text : String)
  | op (op : Operator)
  | openParen
  | closeParen
  | comma
deriving DecidableEq

/-- The characters that may stand between tokens. -/
def isBlank (c : Char) : Bool := c == ' ' || c == '\t' || c == '\r' || c == '\n'

/-- The number that decimal digits denote. -/
def digitsValue (digits : List Char) : Nat := digits.foldl (fun n c => 10 * n + (c.toNat - 48)) 0

/-- The value of a decimal with these digits before and after the point. -/
def decimalValue (whole frac : List Char) : Rat :=
  mkRat (digitsValue (whole ++ frac)) (Nat.pow 10 frac.length)

namespace Token

/-- The operators and marks of one character. -/
def ofChar? : Char → Option Token
  | '+' => some (.op .add)
  | '-' => some (.op .subtract)
  | '*' => some (.op .multiply)
  | '/' => some (.op .divide)
  | '%' => some (.op .modulus)
  | '^' => some (.op .power)
  | '&' => some (.op .bitAnd)
  | '|' => some (.op .bitOr)
  | '(' => some .openParen
  | ')' => some .closeParen
  | ',' => some .comma
  | _ => none

/-- The token at the front of the characters `c :: cs`, as long as it can be, and what follows it. A
point belongs to a number only between digits. -/
def first? (c : Char) (cs : List Char) : Option (Token × List Char) :=
  if c.isDigit then
    let whole := c :: cs.takeWhile Char.isDigit
    match cs.dropWhile Char.isDigit with
    | '.' :: d :: rest =>
      if d.isDigit then
        let fraction := d :: rest.takeWhile Char.isDigit
        some (.number (decimalValue whole fraction), rest.dropWhile Char.isDigit)
      else some (.number (decimalValue whole []), '.' :: d :: rest)
    | rest => some (.number (decimalValue whole []), rest)
  else if startsName c then
    some (.name (String.ofList (c :: cs.takeWhile continuesName)), cs.dropWhile continuesName)
  else
    match c, cs with
    | '^', '^' :: rest => some (.op .bitXor, rest)
    | '<', '<' :: rest => some (.op .leftShift, rest)
    | '>', '>' :: rest => some (.op .rightShift, rest)
    | c, cs => (ofChar? c).map fun t => (t, cs)

theorem length_dropWhile_le (p : α → Bool) (xs : List α) : (xs.dropWhile p).length ≤ xs.length :=
  (List.dropWhile_sublist p).length_le

theorem length_rest_of_first? {c : Char} {cs rest : List Char} {t : Token}
    (h : first? c cs = some (t, rest)) : rest.length ≤ cs.length := by
  have hd := length_dropWhile_le Char.isDigit cs
  unfold first? at h
  split at h
  · split at h
    · rename_i d r heq
      rw [heq] at hd
      have hr := length_dropWhile_le Char.isDigit r
      simp only [List.length_cons] at hd
      split at h <;> simp only [Option.some.injEq, Prod.mk.injEq] at h <;> obtain ⟨-, rfl⟩ := h
      · omega
      · simpa using hd
    · simp only [Option.some.injEq, Prod.mk.injEq] at h
      obtain ⟨-, rfl⟩ := h
      exact hd
  · split at h
    · simp only [Option.some.injEq, Prod.mk.injEq] at h
      obtain ⟨-, rfl⟩ := h
      exact length_dropWhile_le continuesName cs
    · split at h
      · simp only [Option.some.injEq, Prod.mk.injEq] at h
        obtain ⟨-, rfl⟩ := h
        simp
      · simp only [Option.some.injEq, Prod.mk.injEq] at h
        obtain ⟨-, rfl⟩ := h
        simp
      · simp only [Option.some.injEq, Prod.mk.injEq] at h
        obtain ⟨-, rfl⟩ := h
        simp
      · obtain ⟨t', -, h⟩ := Option.map_eq_some_iff.1 h
        simp only [Prod.mk.injEq] at h
        obtain ⟨-, rfl⟩ := h
        exact Nat.le_refl _

/-- All tokens of the characters; none if a character starts no token. -/
def ofChars? : List Char → Option (List Token)
  | [] => some []
  | c :: cs =>
    if isBlank c then ofChars? cs
    else
      match _h : first? c cs with
      | none => none
      | some (t, rest) => (ofChars? rest).map (t :: ·)
termination_by cs => cs.length
decreasing_by
  · simp
  · have := length_rest_of_first? _h
    simp only [List.length_cons]
    omega

end Token

end SymbolicAlgebra
