import Mathlib.Data.Rat.Encodable
import SymbolicAlgebra.Expr.HashData
import SymbolicAlgebra.Proofs.TreeOrdering

/-! The canonical order of trees, equality and hashing tell the same trees apart. -/
namespace SymbolicAlgebra

/-! ## Hash data -/

/-- What is told of one thing ends by itself: whatever follows can be told apart from it. -/
def SelfDelimiting {α β : Type*} (data : α → List β) : Prop :=
  ∀ ⦃a b⦄ ⦃u v : List β⦄, data a ++ u = data b ++ v → a = b ∧ u = v

theorem SelfDelimiting.injective {α β : Type*} {data : α → List β} (h : SelfDelimiting data) :
    Function.Injective data := fun _ _ same =>
  (h (congrArg (· ++ []) same)).1

namespace NamedFunction

theorem isKnown_iff_rank (f : NamedFunction) : f.isKnown = true ↔ f.rank < 29 := by
  refine ⟨rank_of_isKnown, fun small => ?_⟩
  cases f with
  | other name => exact absurd small (Nat.lt_irrefl 29)
  | _ => rfl

theorem hashData_of_isKnown {f : NamedFunction} (known : f.isKnown = true) :
    f.hashData = [.variant f.rank] := by
  cases f with
  | other name => cases known
  | _ => rfl

theorem hashData_selfDelimiting : SelfDelimiting hashData := by
  intro f g u v same
  have ranks : f.rank = g.rank := HashDatum.variant.inj (List.cons.inj same).1
  have names : f.otherName = g.otherName ∧ u = v := by
    by_cases known : f.isKnown = true
    · have known' : g.isKnown = true := by rwa [isKnown_iff_rank, ← ranks, ← isKnown_iff_rank]
      rw [hashData_of_isKnown known, hashData_of_isKnown known'] at same
      rw [otherName_of_isKnown known, otherName_of_isKnown known']
      exact ⟨rfl, (List.cons.inj same).2⟩
    · have unknown : ¬ g.isKnown = true := by rwa [isKnown_iff_rank, ← ranks, ← isKnown_iff_rank]
      cases f with
      | other name =>
        cases g with
        | other name' =>
          obtain ⟨-, rest⟩ := List.cons.inj same
          obtain ⟨text, rest⟩ := List.cons.inj rest
          exact ⟨HashDatum.text.inj text, rest⟩
        | _ => exact absurd rfl unknown
      | _ => exact absurd rfl known
  refine ⟨eq_of_compare ?_, names.2⟩
  rw [compare_eq_compareLex, compareLex_eq_eq, compareOn, compareOn, ranks, names.1]
  exact ⟨Std.ReflCmp.compare_self, Std.ReflCmp.compare_self⟩

end NamedFunction

theorem Operator.eq_of_rank {a b : Operator} (ranks : a.rank = b.rank) : a = b :=
  eq_of_compare (compare_eq_iff_eq.mpr ranks)

section Rationals

variable {ofRat : ℚ → List HashDatum}

theorem Numeral.hashData_selfDelimiting (rationals : SelfDelimiting ofRat) :
    SelfDelimiting (Numeral.hashData ofRat) := by
  intro x y u v same
  cases x with
  | exact r =>
    cases y with
    | exact s =>
      obtain ⟨rfl, rest⟩ := rationals (List.cons.inj same).2
      exact ⟨rfl, rest⟩
    | _ => exact absurd (HashDatum.byte.inj (List.cons.inj same).1) (by decide)
  | float x =>
    cases y with
    | float y =>
      obtain ⟨word, rest⟩ := List.cons.inj (List.cons.inj same).2
      have values : x.value = y.value := congrArg Binary64.mk (HashDatum.word.inj word)
      cases x
      cases y
      cases values
      exact ⟨rfl, rest⟩
    | _ => exact absurd (HashDatum.byte.inj (List.cons.inj same).1) (by decide)
  | nan =>
    cases y with
    | nan => exact ⟨rfl, (List.cons.inj same).2⟩
    | _ => exact absurd (HashDatum.byte.inj (List.cons.inj same).1) (by decide)

theorem ComplexNumeral.hashData_selfDelimiting (rationals : SelfDelimiting ofRat) :
    SelfDelimiting (ComplexNumeral.hashData ofRat) := by
  intro z w u v same
  rw [hashData, hashData, List.append_assoc, List.append_assoc] at same
  obtain ⟨re, rest⟩ := Numeral.hashData_selfDelimiting rationals same
  obtain ⟨im, after⟩ := Numeral.hashData_selfDelimiting rationals rest
  cases z
  cases w
  exact ⟨congrArg₂ mk re im, after⟩

namespace Expr

theorem kindRank_of_hashData {a b : Expr} {u v : List HashDatum}
    (same : a.hashData ofRat ++ u = b.hashData ofRat ++ v) : a.kindRank = b.kindRank := by
  cases a <;> cases b <;> exact HashDatum.variant.inj (List.cons.inj same).1

/-- The number in front of the operands tells where the last one ends. -/
theorem eq_of_hashDataAll {xs ys : List Expr}
    (each : ∀ x ∈ xs, ∀ ⦃y u v⦄, x.hashData ofRat ++ u = y.hashData ofRat ++ v → x = y ∧ u = v)
    {u v : List HashDatum} (lengths : xs.length = ys.length)
    (same : hashDataAll ofRat xs ++ u = hashDataAll ofRat ys ++ v) : xs = ys ∧ u = v := by
  induction xs generalizing ys with
  | nil =>
    obtain rfl := List.length_eq_zero_iff.mp lengths.symm
    exact ⟨rfl, same⟩
  | cons x xs ih =>
    cases ys with
    | nil => cases lengths
    | cons y ys =>
      obtain ⟨here, there⟩ := List.forall_mem_cons.mp each
      rw [hashDataAll, hashDataAll, List.append_assoc, List.append_assoc] at same
      obtain ⟨first, rest⟩ := here same
      obtain ⟨others, after⟩ := ih there (Nat.succ.inj lengths) rest
      exact ⟨by rw [first, others], after⟩

theorem hashData_selfDelimiting (rationals : SelfDelimiting ofRat) :
    SelfDelimiting (hashData ofRat) := by
  intro a
  induction a with
  | number x =>
    intro b u v same
    have kinds := kindRank_of_hashData same
    cases b with
    | number y =>
      obtain ⟨rfl, rest⟩ := Numeral.hashData_selfDelimiting rationals (List.cons.inj same).2
      exact ⟨rfl, rest⟩
    | _ => cases kinds
  | complex z =>
    intro b u v same
    have kinds := kindRank_of_hashData same
    cases b with
    | complex w =>
      obtain ⟨rfl, rest⟩ := ComplexNumeral.hashData_selfDelimiting rationals (List.cons.inj same).2
      exact ⟨rfl, rest⟩
    | _ => cases kinds
  | ident name =>
    intro b u v same
    have kinds := kindRank_of_hashData same
    cases b with
    | ident name' =>
      obtain ⟨text, rest⟩ := List.cons.inj (List.cons.inj same).2
      exact ⟨congrArg ident (HashDatum.text.inj text), rest⟩
    | _ => cases kinds
  | call f xs ih =>
    intro b u v same
    have kinds := kindRank_of_hashData same
    cases b with
    | call g ys =>
      rw [hashData, hashData, List.cons_append, List.cons_append, List.append_assoc,
        List.append_assoc] at same
      obtain ⟨functions, rest⟩ := NamedFunction.hashData_selfDelimiting (List.cons.inj same).2
      obtain ⟨lengths, rest⟩ := List.cons.inj rest
      obtain ⟨args, after⟩ := eq_of_hashDataAll ih (HashDatum.length.inj lengths) rest
      exact ⟨by rw [functions, args], after⟩
    | _ => cases kinds
  | node op xs ih =>
    intro b u v same
    have kinds := kindRank_of_hashData same
    cases b with
    | node o ys =>
      obtain ⟨operators, rest⟩ := List.cons.inj (List.cons.inj same).2
      obtain ⟨lengths, rest⟩ := List.cons.inj rest
      have operator : op = o := Operator.eq_of_rank (HashDatum.variant.inj operators)
      obtain ⟨operands, after⟩ := eq_of_hashDataAll ih (HashDatum.length.inj lengths) rest
      exact ⟨by rw [operator, operands], after⟩
    | _ => cases kinds

/-- Trees that feed the same data, however rationals do so, are the same tree. -/
theorem eq_of_hashData {a b : Expr} (same : ∀ ofRat, a.hashData ofRat = b.hashData ofRat) :
    a = b := by
  have rationals : SelfDelimiting fun r : ℚ => [HashDatum.length (Encodable.encode r)] := by
    intro r s u v equal
    obtain ⟨code, rest⟩ := List.cons.inj equal
    exact ⟨Encodable.encode_injective (HashDatum.length.inj code), rest⟩
  exact (hashData_selfDelimiting rationals).injective (same _)

end Expr

end Rationals

/-! ## The order -/

namespace Expr

theorem compare_eq_iff {a b : Expr} : compare a b = .eq ↔ a = b := by
  refine ⟨eq_of_compare, ?_⟩
  rintro rfl
  exact Std.ReflCmp.compare_self

/-- Of two different trees exactly one comes first, what comes first does so across trees between,
and turning a comparison around turns its result around. Trees tie exactly if they are the same, and
then they feed a hasher the same data; an exact numeral ties with no float, not even with the one
that it is rounded to. -/
theorem compare_totalOrder_hashData (a b c : Expr) :
    ((compare a b = .lt ∨ a = b ∨ compare b a = .lt) ∧
      ¬(compare a b = .lt ∧ a = b) ∧ ¬(a = b ∧ compare b a = .lt) ∧
      ¬(compare a b = .lt ∧ compare b a = .lt)) ∧
    (compare a b = .lt → compare b c = .lt → compare a c = .lt) ∧
    compare a b = (compare b a).swap ∧
    (compare a b = .eq ↔ a = b) ∧
    (∀ (r : ℚ) (x : FiniteFloat), compare (.number (.exact r)) (.number (.float x)) ≠ .eq) ∧
    (compare a b = .eq ↔ ∀ ofRat, a.hashData ofRat = b.hashData ofRat) := by
  have swap := compare_swap a b
  have tie : compare a b = .eq ↔ a = b := compare_eq_iff
  refine ⟨⟨?_, ?_, ?_, ?_⟩, Std.TransCmp.lt_trans, swap, tie, ?_, ?_⟩
  · cases order : compare a b with
    | lt => exact .inl rfl
    | eq => exact .inr (.inl (tie.mp order))
    | gt => exact .inr (.inr (Std.OrientedCmp.gt_iff_lt.mp order))
  · rintro ⟨less, same⟩
    rw [tie.mpr same] at less
    cases less
  · rintro ⟨same, more⟩
    rw [more, tie.mpr same] at swap
    cases swap
  · rintro ⟨less, more⟩
    rw [less, more] at swap
    cases swap
  · intro r x same
    cases compare_eq_iff.mp same
  · refine tie.trans ⟨?_, eq_of_hashData⟩
    rintro rfl ofRat
    rfl

-- two exact values that are both rounded to the float stand before it, in their own order
example :
    let one := number (.exact 1)
    let more := number (.exact (1 + 1 / 2 ^ 60))
    let float := number (.float ⟨.one, by decide⟩)
    compare one more = .lt ∧ compare more float = .lt ∧ compare one float = .lt := by
  decide +kernel

end Expr

end SymbolicAlgebra
