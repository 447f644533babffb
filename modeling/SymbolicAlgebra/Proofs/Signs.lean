import SymbolicAlgebra.Expr.Sign
import SymbolicAlgebra.Proofs.Parts

/-! Where a sign goes that is put in front of an expression, and that it comes off again. -/
namespace SymbolicAlgebra

namespace Expr

/-- A sign in front goes into the expression: into a numeral, the first factor of a product or the
numerator of a quotient. -/
def takesSign : Expr → Bool
  | .number _ | .complex _ | .node .multiply _ | .node .divide [_, _] => true
  | _ => false

theorem negate_of_not_takesSign {e : Expr} (h : e.takesSign = false) :
    e.negate = .mul (ofInt (-1)) e := by
  unfold negate
  split
  · cases h
  · cases h
  · cases h
  · cases h
  · rfl

/-- Beside a numeral in front a product has other factors, and a sign put in front of one of them does
not go into it: none is a numeral, a complex numeral, a product or a quotient. -/
def HasSignInFront : Expr → Prop
  | .node op (x :: rest) =>
    op = .multiply → x.isNumber = true → rest ≠ [] ∧ ∀ r ∈ rest, r.takesSign = false
  | _ => True

instance : DecidablePred HasSignInFront
  | .node _ (_ :: _) => inferInstanceAs (Decidable (_ → _ → _ ∧ _))
  | .number _ | .complex _ | .ident _ | .call _ _ | .node _ [] => .isTrue trivial

theorem isNumber_of_not_takesSign {e : Expr} (h : e.takesSign = false) : e.isNumber = false := by
  cases e <;> first | rfl | cases h

/-- A sign leaves the parts of an expression alone but for numerals, products and quotients. -/
theorem AllParts.negate {P : Expr → Prop} (number : ∀ x, P (.number x))
    (complex : ∀ z, P (.complex z)) (product : ∀ xs, P (.node .multiply xs))
    (quotient : ∀ n d, P (.node .divide [n, d])) {e : Expr} (h : e.AllParts P) :
    e.negate.AllParts P := by
  have products (xs : List Expr) (each : ∀ x ∈ xs, x.AllParts P) :
      (Expr.product xs).AllParts P := by
    match xs, each with
    | [], _ => exact number _
    | [x], each => exact each x List.mem_cons_self
    | _ :: _ :: _, each => exact allParts_node.mpr ⟨product _, each⟩
  induction e with
  | number x => exact number _
  | complex z => exact complex _
  | ident name => exact products _ (by simpa using ⟨number _, h⟩)
  | call f xs => exact products _ (by simpa using ⟨number _, h⟩)
  | node op xs ih =>
    unfold Expr.negate
    split
    · exact number _
    · exact complex _
    · rename_i factors same
      cases same
      have each := h.operands
      unfold negateFactors
      split
      · rename_i x rest
        obtain ⟨-, others⟩ := List.forall_mem_cons.mp each
        split
        · exact products _ others
        · exact products _ (List.forall_mem_cons.mpr ⟨number _, others⟩)
      · exact products _ (List.forall_mem_cons.mpr ⟨number _, each⟩)
    · rename_i n d same
      cases same
      have each := h.operands
      exact allParts_node.mpr ⟨quotient _ _, by
        simpa using ⟨ih n (by simp) (each n (by simp)), each d (by simp)⟩⟩
    · exact products _ (by simpa using ⟨number _, h⟩)

/-- The tree holds no float at its root. -/
def HasNoFloat : Expr → Prop
  | .number (.float _) => False
  | _ => True

instance : DecidablePred HasNoFloat
  | .number (.float _) => .isFalse id
  | .number (.exact _) | .number .nan => .isTrue trivial
  | .complex _ | .ident _ | .call _ _ | .node _ _ => .isTrue trivial

theorem neg_neg_of_hasNoFloat {x : Numeral} (h : (number x).HasNoFloat) : x.neg.neg = x := by
  cases x with
  | exact r => simp [Numeral.neg]
  | float x => cases h
  | nan => rfl

theorem eq_of_isOne_neg {x : Numeral} (h : (number x).HasNoFloat) (one : x.neg.isOne = true) :
    x = .ofInt (-1) := by
  cases x with
  | exact r =>
    have value : -r = 1 := by simpa [Numeral.neg, Numeral.isOne] using one
    rw [Numeral.ofInt, ← neg_eq_iff_eq_neg.mpr value.symm]
    rfl
  | float x => cases h
  | nan => cases one

theorem isOne_of_isNegative {x : Numeral} (h : (number x).HasNoFloat)
    (negative : x.isNegative = true) : x.isOne = false := by
  cases x with
  | exact r =>
    rw [← Bool.not_eq_true]
    intro one
    have same : r = 1 := by simpa [Numeral.isOne] using one
    rw [same] at negative
    cases negative
  | float x => cases h
  | nan => rfl

end Expr

end SymbolicAlgebra
