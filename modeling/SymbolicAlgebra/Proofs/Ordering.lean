import Mathlib.Order.Compare
import Mathlib.Order.Std
import SymbolicAlgebra.Proofs.Congruence
import SymbolicAlgebra.Proofs.RoundingOrder
import SymbolicAlgebra.Rule.OperandOrder

/-! The canonical orders are total, transitive and agree with equality, so that a list of operands
has one ordered form. -/
namespace SymbolicAlgebra

/-! ## Numerals -/

namespace Binary64

theorem position_injective {x y : Binary64} (h : x.position = y.position) : x = y := by
  have low := x.bits.toNat_lt
  have low' := y.bits.toNat_lt
  have same : x.bits.toNat = y.bits.toNat := by
    unfold position signBit magnitudeBits signWeight at h
    by_cases sign : 9223372036854775808 ≤ x.bits.toNat
    · by_cases sign' : 9223372036854775808 ≤ y.bits.toNat
      · simp only [sign, sign', decide_true, ↓reduceIte] at h
        omega
      · simp only [sign, sign', decide_true, decide_false, ↓reduceIte, Bool.false_eq_true] at h
        omega
    · by_cases sign' : 9223372036854775808 ≤ y.bits.toNat
      · simp only [sign, sign', decide_true, decide_false, ↓reduceIte, Bool.false_eq_true] at h
        omega
      · simp only [sign, sign', decide_false, ↓reduceIte, Bool.false_eq_true] at h
        omega
  cases x
  cases y
  exact congrArg mk (UInt64.toNat_inj.mp same)

end Binary64

/-- A key that keeps the order need not be looked at before the value. -/
theorem compare_then_compare {α β : Type*} [LinearOrder α] [LinearOrder β] {f : α → β}
    (mono : Monotone f) (a b : α) :
    (Ord.compare (f a) (f b)).then (Ord.compare a b) = Ord.compare a b := by
  rcases lt_trichotomy a b with less | rfl | more
  · rcases (mono less.le).lt_or_eq with below | same
    · rw [compare_lt_iff_lt.mpr below, compare_lt_iff_lt.mpr less]
      rfl
    · rw [same, compare_eq_iff_eq.mpr rfl]
      rfl
  · rw [compare_eq_iff_eq.mpr rfl]
    rfl
  · rcases (mono more.le).lt_or_eq with below | same
    · rw [compare_gt_iff_gt.mpr below, compare_gt_iff_gt.mpr more]
      rfl
    · rw [same, compare_eq_iff_eq.mpr rfl]
      rfl

namespace Numeral

/-- The undefined number stands last. -/
def undefinedRank : Numeral → Nat
  | .nan => 1
  | _ => 0

/-- The position of the nearest float. -/
def floatPosition : Numeral → Int
  | .exact r => (Binary64.ofRat r).position
  | .float x => x.value.position
  | .nan => 0

/-- An exact value stands before a float. -/
def floatRank : Numeral → Nat
  | .float _ => 1
  | _ => 0

def exactValue : Numeral → ℚ
  | .exact r => r
  | _ => 0

/-- By four keys, one after the other. -/
def compareKeys : Numeral → Numeral → Ordering :=
  compareLex (compareOn undefinedRank) (compareLex (compareOn floatPosition)
    (compareLex (compareOn floatRank) (compareOn exactValue)))

theorem compare_eq_compareKeys : compare = compareKeys := by
  funext x y
  cases x with
  | exact r =>
    cases y with
    | exact s =>
      have mono : Monotone fun r : ℚ => (Binary64.ofRat r).position := fun _ _ le =>
        Binary64.position_ofRat_mono le
      exact (compare_then_compare mono r s).symm
    | float y => rfl
    | nan => rfl
  | float x =>
    cases y with
    | exact s => rfl
    | float y => exact Ordering.then_eq.symm
    | nan => rfl
  | nan => cases y <;> rfl

instance : Std.TransCmp Numeral.compare := by
  rw [compare_eq_compareKeys]
  unfold compareKeys
  infer_instance

theorem eq_of_compare {x y : Numeral} (h : x.compare y = .eq) : x = y := by
  rw [compare_eq_compareKeys] at h
  simp only [compareKeys, compareLex_eq_eq, compareOn, compare_eq_iff_eq] at h
  obtain ⟨undefined, position, rank, value⟩ := h
  cases x with
  | exact r =>
    cases y with
    | exact s => exact congrArg exact value
    | float y => cases rank
    | nan => cases undefined
  | float x =>
    cases y with
    | exact s => cases rank
    | float y =>
      have same : x.value = y.value := Binary64.position_injective position
      cases x
      cases y
      cases same
      rfl
    | nan => cases undefined
  | nan =>
    cases y with
    | exact s => cases undefined
    | float y => cases undefined
    | nan => rfl

instance : Std.LawfulEqCmp Numeral.compare where
  compare_self := Std.ReflCmp.compare_self
  eq_of_compare := eq_of_compare

end Numeral

/-! ## Functions and operators -/

namespace NamedFunction

def otherName : NamedFunction → String
  | .other name => name
  | _ => ""

theorem rank_of_isKnown {f : NamedFunction} (known : f.isKnown = true) : f.rank < 29 := by
  cases f with
  | circular r | arcCircular r | hyperbolic r | arcHyperbolic r => cases r <;> decide
  | ln | log | abs | sqrt | sgn => decide
  | other name => cases known

theorem compare_of_isKnown {f g : NamedFunction} (known : f.isKnown = true ∨ g.isKnown = true) :
    f.compare g = Ord.compare f.rank g.rank := by
  unfold NamedFunction.compare
  split
  · rcases known with known | known <;> cases known
  · rfl

theorem otherName_of_isKnown {f : NamedFunction} (known : f.isKnown = true) : f.otherName = "" := by
  cases f with
  | other name => cases known
  | _ => rfl

/-- By rank, and by name where neither function is known. -/
theorem compare_eq_compareLex : NamedFunction.compare =
    compareLex (compareOn rank) (compareOn otherName) := by
  funext f g
  show f.compare g = (Ord.compare f.rank g.rank).then (Ord.compare f.otherName g.otherName)
  by_cases left : f.isKnown = true
  · rw [compare_of_isKnown (.inl left)]
    by_cases right : g.isKnown = true
    · rw [otherName_of_isKnown left, otherName_of_isKnown right]
      exact Ordering.then_eq.symm
    · cases g with
      | other name =>
        have less : Ord.compare f.rank (other name).rank = .lt :=
          Nat.compare_eq_lt.mpr (rank_of_isKnown left)
        rw [less]
        rfl
      | _ => exact absurd rfl right
  · cases f with
    | other name =>
      by_cases right : g.isKnown = true
      · have more : Ord.compare (other name).rank g.rank = .gt :=
          Nat.compare_eq_gt.mpr (rank_of_isKnown right)
        rw [compare_of_isKnown (.inr right), more]
        rfl
      · cases g with
        | other name' => rfl
        | _ => exact absurd rfl right
    | _ => exact absurd rfl left

instance : Std.TransCmp NamedFunction.compare := by
  rw [compare_eq_compareLex]
  infer_instance

theorem eq_of_compare {f g : NamedFunction} (h : f.compare g = .eq) : f = g := by
  rw [compare_eq_compareLex, compareLex_eq_eq] at h
  obtain ⟨ranks, names⟩ := h
  have rank : f.rank = g.rank := Nat.compare_eq_eq.mp ranks
  have name : f.otherName = g.otherName := Std.LawfulEqCmp.eq_of_compare names
  cases f with
  | other a =>
    cases g with
    | other b => exact congrArg other name
    | circular r | arcCircular r | hyperbolic r | arcHyperbolic r => cases r <;> cases rank
    | ln | log | abs | sqrt | sgn => cases rank
  | circular r | arcCircular r | hyperbolic r | arcHyperbolic r =>
    cases r <;> cases g <;> first
      | cases rank
      | (rename_i r'; cases r' <;> first | rfl | cases rank)
  | ln | log | abs | sqrt | sgn =>
    cases g <;> first
      | rfl
      | cases rank
      | (rename_i r'; cases r' <;> cases rank)

end NamedFunction

namespace Operator

instance : Std.TransCmp Operator.compare := inferInstanceAs (Std.TransCmp (compareOn Operator.rank))

theorem eq_of_compare {a b : Operator} (h : a.compare b = .eq) : a = b := by
  have ranks : a.rank = b.rank := compare_eq_iff_eq.mp h
  cases a <;> cases b <;> first | rfl | cases ranks

instance : Std.LawfulEqCmp Operator.compare where
  compare_self := Std.ReflCmp.compare_self
  eq_of_compare := eq_of_compare

end Operator

end SymbolicAlgebra
