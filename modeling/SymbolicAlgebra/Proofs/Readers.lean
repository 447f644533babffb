import SymbolicAlgebra.Proofs.TextTokens
import SymbolicAlgebra.Text.Reader

/-! Reading the tokens of one construct off the front of a token list. Which tokens may follow
depends on how tightly the construct binds; a construct that is read at one level is also read at
every looser one. -/
namespace SymbolicAlgebra

/-- The next looser level. -/
def Binding.outer : Binding → Binding
  | .bitOr | .bitXor => .bitOr
  | .bitAnd => .bitXor
  | .shift => .bitAnd
  | .sum => .shift
  | .product => .sum
  | .sign => .product
  | .power => .sign
  | .atom => .power

theorem Binding.rank_outer {b : Binding} (h : b ≠ .bitOr) : b.outer.rank + 1 = b.rank := by
  cases b with
  | bitOr => exact absurd rfl h
  | _ => rfl

theorem Binding.eq_of_rank {a b : Binding} (h : a.rank = b.rank) : a = b := by
  cases a <;> cases b <;> first | rfl | cases h

theorem Binding.one_le_rank (b : Binding) : 1 ≤ b.rank := by
  cases b <;> decide

namespace Reader

/-- The reader for constructs that bind no looser than a level. -/
def atLevel (depth : Nat) : Binding → Reader
  | .bitOr => expression (signed depth)
  | .bitXor => flatChain .bitXor (flatChain .bitAnd (shifts (signed depth)))
  | .bitAnd => flatChain .bitAnd (shifts (signed depth))
  | .shift => shifts (signed depth)
  | .sum => addends (signed depth)
  | .product => factors (signed depth)
  | .sign => signed depth
  | .power => power (depth - 1)
  | .atom => primary (depth - 2)

/-- Nothing at the front of the tokens continues a construct of the level. -/
def Stops (b : Binding) : List Token → Prop
  | [] => True
  | .op o :: _ => o.binding.rank < b.rank
  | .closeParen :: _ | .comma :: _ => True
  | _ => False

/-- A reader takes the tokens as the expression, whatever stops the level after them. -/
def ReadsWith (read : Reader) (b : Binding) (ts : List Token) (e : Expr) : Prop :=
  ∀ rest, Stops b rest → read (ts ++ rest) = some (e, rest)

/-- The tokens are read as the expression at the level. A depth of three for each token is
enough. -/
def Reads (b : Binding) (ts : List Token) (e : Expr) : Prop :=
  ∀ depth, 3 * ts.length ≤ depth → ReadsWith (atLevel depth b) b ts e

theorem Stops.mono {a b : Binding} (le : a.rank ≤ b.rank) {rest : List Token} (h : Stops a rest) :
    Stops b rest := by
  unfold Stops at h ⊢
  split at h
  · trivial
  · exact h.trans_le le
  · trivial
  · trivial
  · cases h

/-- No operator binds as tightly as a sign does. -/
theorem Stops.sign {rest : List Token} (h : Stops .power rest) : Stops .sign rest := by
  unfold Stops at h ⊢
  split at h
  · trivial
  · rename_i o _
    cases o <;> first | exact absurd h (by decide) | decide
  · trivial
  · trivial
  · cases h

theorem Stops.ne_op {b : Binding} {rest : List Token} (h : Stops b rest) {o : Operator}
    (tight : b.rank ≤ o.binding.rank) (ts : List Token) : rest ≠ .op o :: ts := by
  rintro rfl
  have less : o.binding.rank < b.rank := h
  omega

/-! ## Tokens that start nothing -/

theorem power_op (depth : Nat) (o : Operator) (ts : List Token) :
    power depth (.op o :: ts) = none := by
  cases depth with
  | zero => rfl
  | succ depth =>
    cases depth with
    | zero => rfl
    | succ depth => rfl

theorem signed_closeParen (depth : Nat) (ts : List Token) :
    signed depth (.closeParen :: ts) = none := by
  cases depth with
  | zero => rfl
  | succ depth =>
    cases depth with
    | zero => rfl
    | succ depth =>
      cases depth with
      | zero => rfl
      | succ depth => rfl

/-! ## Runs that end -/

theorem moreOperands_stops {op : Operator} {rest : List Token} (h : Stops op.binding rest)
    (read : Reader) (count : Nat) : moreOperands op read count rest = some ([], rest) := by
  unfold moreOperands
  split
  · rename_i o ts
    have other : o ≠ op := by
      rintro rfl
      exact h.ne_op le_rfl ts rfl
    rw [if_neg other]
  · rfl

theorem moreFactors_stops {rest : List Token} (h : Stops .product rest) (read : Reader)
    (count : Nat) (run : List Expr) :
    moreFactors read count run rest = some (ofRun .multiply run, rest) := by
  unfold moreFactors
  split
  · exact absurd rfl (h.ne_op le_rfl _)
  · exact absurd rfl (h.ne_op le_rfl _)
  · exact absurd rfl (h.ne_op le_rfl _)
  · rfl

theorem moreAddends_stops {rest : List Token} (h : Stops .sum rest) (read : Reader) (count : Nat)
    (run : List Expr) : moreAddends read count run rest = some (ofRun .add run, rest) := by
  unfold moreAddends
  split
  · exact absurd rfl (h.ne_op le_rfl _)
  · exact absurd rfl (h.ne_op le_rfl _)
  · rfl

theorem moreShifts_stops {rest : List Token} (h : Stops .shift rest) (read : Reader) (count : Nat)
    (left : Expr) : moreShifts read count left rest = some (left, rest) := by
  unfold moreShifts
  split
  · exact absurd rfl (h.ne_op le_rfl _)
  · exact absurd rfl (h.ne_op le_rfl _)
  · rfl

/-! ## Looser levels -/

theorem ReadsWith.flatChain {op : Operator} {inner : Binding} {read : Reader} {ts : List Token}
    {e : Expr} (h : ReadsWith read inner ts e) (le : op.binding.rank ≤ inner.rank) :
    ReadsWith (flatChain op read) op.binding ts e := by
  intro rest stops
  have first := h rest (stops.mono le)
  simp only [Reader.flatChain, first, Option.bind_eq_bind, Option.bind_some,
    moreOperands_stops stops, ofRun]

theorem ReadsWith.factors {read : Reader} {ts : List Token} {e : Expr}
    (h : ReadsWith read .sign ts e) : ReadsWith (factors read) .product ts e := by
  intro rest stops
  have first := h rest (stops.mono (by decide))
  simp only [Reader.factors, first, Option.bind_eq_bind, Option.bind_some,
    moreFactors_stops stops, ofRun]

theorem ReadsWith.addends {read : Reader} {ts : List Token} {e : Expr}
    (h : ReadsWith (Reader.factors read) .product ts e) : ReadsWith (addends read) .sum ts e := by
  intro rest stops
  have first := h rest (stops.mono (by decide))
  simp only [Reader.addends, first, Option.bind_eq_bind, Option.bind_some,
    moreAddends_stops stops, ofRun]

theorem ReadsWith.shifts {read : Reader} {ts : List Token} {e : Expr}
    (h : ReadsWith (Reader.addends read) .sum ts e) : ReadsWith (shifts read) .shift ts e := by
  intro rest stops
  have first := h rest (stops.mono (by decide))
  simp only [Reader.shifts, first, Option.bind_eq_bind, Option.bind_some, moreShifts_stops stops]

/-- What is no power is read by itself. -/
theorem power_of_primary {depth : Nat} {ts rest : List Token} {e : Expr}
    (h : primary depth ts = some (e, rest)) (stops : Stops .power rest) :
    power (depth + 1) ts = some (e, rest) := by
  simp only [power, h, Option.bind_eq_bind, Option.bind_some]
  split
  · rename_i same
    cases same
    exact absurd rfl (stops.ne_op le_rfl _)
  · rfl

/-- What starts with no sign is read by itself. -/
theorem signed_of_power {depth : Nat} {ts rest : List Token} {e : Expr}
    (h : power depth ts = some (e, rest)) : signed (depth + 1) ts = some (e, rest) := by
  rw [signed]
  · exact h
  · rintro others rfl
    rw [power_op] at h
    cases h

theorem Reads.outer {b : Binding} {ts : List Token} {e : Expr} (h : Reads b ts e) :
    Reads b.outer ts e := by
  intro depth enough
  have read := h depth enough
  cases b with
  | bitOr => exact read
  | bitXor => exact read.flatChain (by decide)
  | bitAnd => exact read.flatChain (by decide)
  | shift => exact read.flatChain (by decide)
  | sum => exact read.shifts
  | product => exact read.addends
  | sign => exact read.factors
  | power =>
    intro rest stops
    have found := read rest (stops.mono (by decide))
    cases depth with
    | zero => cases found
    | succ depth => exact signed_of_power found
  | atom =>
    intro rest stops
    have found := read rest (stops.mono (by decide))
    match depth with
    | 0 | 1 => cases found
    | depth + 2 => exact power_of_primary found stops

theorem Reads.loosen {a b : Binding} {ts : List Token} {e : Expr} (h : Reads a ts e)
    (le : b.rank ≤ a.rank) : Reads b ts e := by
  obtain ⟨steps, count⟩ := Nat.exists_eq_add_of_le le
  induction steps generalizing a with
  | zero =>
    have same : a = b := Binding.eq_of_rank count
    rwa [← same]
  | succ steps ih =>
    have inner : a ≠ .bitOr := by
      rintro rfl
      have := b.one_le_rank
      change 1 = b.rank + (steps + 1) at count
      omega
    have up := Binding.rank_outer inner
    exact ih h.outer (by omega) (by omega)

end Reader

end SymbolicAlgebra
