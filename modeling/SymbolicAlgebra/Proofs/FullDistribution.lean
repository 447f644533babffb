import SymbolicAlgebra.Proofs.ChangeFlags
import SymbolicAlgebra.Proofs.Expansion

/-! What repeated distribution leaves where it comes to rest: products without sums and no small
powers of sums, but for those that are too large for the rules. A product over more than 64 addends
is left alone, in repeated distribution as well. -/
namespace SymbolicAlgebra

/-! ## Passes that come to rest -/

/-- Within so many rounds the pass comes to one in which it does not fire. -/
def StopsWithin (pass : Expr → Step) : Nat → Expr → Prop
  | 0, _ => False
  | rounds + 1, e => (pass e).changed = true → StopsWithin pass rounds (pass e).expr

def decideStopsWithin (pass : Expr → Step) :
    (rounds : Nat) → (e : Expr) → Decidable (StopsWithin pass rounds e)
  | 0, _ => isFalse id
  | rounds + 1, e =>
    @instDecidableForall _ _ _ (decideStopsWithin pass rounds (pass e).expr)

instance (pass : Expr → Step) (rounds : Nat) (e : Expr) : Decidable (StopsWithin pass rounds e) :=
  decideStopsWithin pass rounds e

/-- Where a repeated pass stops it does not fire. -/
theorem repeatPass_unchanged {pass : Expr → Step} (truthful : ∀ e, (pass e).Truthful e)
    {rounds : Nat} {e : Expr} (stops : StopsWithin pass rounds e) :
    (pass (repeatPass pass rounds e).expr).changed = false := by
  induction rounds generalizing e with
  | zero => cases stops
  | succ rounds ih =>
    rw [repeatPass]
    split
    · rename_i fired
      exact ih (stops fired)
    · rename_i unfired
      have unchanged : (pass e).changed = false := by simpa using unfired
      rw [Step.same, truthful e unchanged]
      exact unchanged

theorem everywhereAll_snd (rule : Expr → Step) (xs : List Expr) :
    (everywhereAll rule xs).2 = xs.any fun x => (everywhere rule x).changed := by
  induction xs with
  | nil => rfl
  | cons x xs ih => rw [everywhereAll, ih, List.any_cons]

/-- A rule that fired nowhere in a tree does not fire for any tree in it. -/
theorem unfired_of_everywhere {rule : Expr → Step} (truthful : ∀ e, (rule e).Truthful e) {e : Expr}
    (unchanged : (everywhere rule e).changed = false) :
    e.AllParts fun part => (rule part).changed = false := by
  have below {xs : List Expr} (quiet : (everywhereAll rule xs).2 = false) :
      (everywhereAll rule xs).1 = xs ∧ ∀ x ∈ xs, (everywhere rule x).changed = false := by
    refine ⟨everywhereAll_truthful (fun x _ => everywhere_truthful_of_forall truthful x) quiet, ?_⟩
    rw [everywhereAll_snd] at quiet
    exact fun x member => by simpa using List.any_eq_false.mp quiet x member
  induction e with
  | number x => exact unchanged
  | complex z => exact unchanged
  | ident name => exact unchanged
  | call f xs ih =>
    rw [everywhere, Bool.or_eq_false_iff] at unchanged
    obtain ⟨same, each⟩ := below unchanged.1
    rw [same] at unchanged
    exact Expr.allParts_call.mpr ⟨unchanged.2, fun x member => ih x member (each x member)⟩
  | node op xs ih =>
    rw [everywhere, Bool.or_eq_false_iff] at unchanged
    obtain ⟨same, each⟩ := below unchanged.1
    rw [same] at unchanged
    exact Expr.allParts_node.mpr ⟨unchanged.2, fun x member => ih x member (each x member)⟩

/-! ## Products and powers that are left -/

namespace Expr

/-- No operand of a product is a sum, and no sum is raised to an integer from 2 to 16. -/
def IsMultipliedOut : Expr → Prop
  | .node .multiply xs => ∀ x ∈ xs, x.isNode .add = false
  | .node .power [.node .add _, exponent] =>
    ∀ n : Nat, 2 ≤ n → n ≤ maxExpandedPower → exponent ≠ .number (.exact n)
  | _ => True

/-- The first sum of a product has more addends than a product is multiplied out into, or a power of
a sum more terms than can be counted. -/
def PassesLimit : Expr → Prop
  | .node .multiply xs =>
    ∃ before terms after, splitAtSum xs = some (before, terms, after) ∧
      maxDistributedTerms < terms.length
  | .node .power [.node .add terms, exponent] =>
    ∃ n : Nat, exponent = .number (.exact n) ∧ maxTermCount < terms.length ^ n
  | _ => False

theorem expandedPower?_natCast {n : Nat} (two : 2 ≤ n) (bound : n ≤ maxExpandedPower) :
    (number (.exact n)).expandedPower? = some n := by
  have integer : Numeral.integer? (.exact n) = some (n : ℤ) := by simp [Numeral.integer?]
  simp [expandedPower?, number?, integer, two, bound]

end Expr

theorem not_isNode_of_splitAtSum {xs : List Expr} (none : splitAtSum xs = none) :
    ∀ x ∈ xs, x.isNode .add = false := by
  fun_induction splitAtSum xs with
  | case1 => simp
  | case2 terms tail => cases none
  | case3 x tail other ih =>
    refine List.forall_mem_cons.mpr ⟨?_, ih (Option.map_eq_none_iff.mp none)⟩
    cases x with
    | node op ys =>
      have different : op ≠ .add := fun same => other ys (by rw [same])
      simpa [Expr.isNode] using different
    | _ => rfl

/-- A product that distribution leaves alone has no sum, or its first one is too long. -/
theorem isMultipliedOut_of_distributeNode {xs : List Expr}
    (unfired : (distributeNode (.node .multiply xs)).changed = false) :
    (Expr.node .multiply xs).IsMultipliedOut ∨ (Expr.node .multiply xs).PassesLimit := by
  rw [distributeNode] at unfired
  split at unfired
  · rename_i before terms after split
    split at unfired
    · cases unfired
    · rename_i long
      exact .inr ⟨before, terms, after, split, Nat.lt_of_not_le long⟩
  · rename_i none
    exact .inl (not_isNode_of_splitAtSum none)

theorem isMultipliedOut_of_expandPower {terms : List Expr} {exponent : Expr}
    (unfired : (expandPower maxTermCount (.node .power [.node .add terms, exponent])).changed =
      false) :
    (Expr.node .power [.node .add terms, exponent]).IsMultipliedOut ∨
      (Expr.node .power [.node .add terms, exponent]).PassesLimit := by
  by_cases small : ∃ n : Nat, 2 ≤ n ∧ n ≤ maxExpandedPower ∧ exponent = .number (.exact n)
  · obtain ⟨n, two, bound, rfl⟩ := small
    refine .inr ⟨n, rfl, ?_⟩
    rw [expandPower, Expr.expandedPower?_natCast two bound] at unfired
    dsimp only at unfired
    split at unfired
    · cases unfired
    · rename_i large
      exact Nat.lt_of_not_le large
  · exact .inl fun n two bound same => small ⟨n, two, bound, same⟩

/-- The rounds end with every product multiplied out and every small power of a sum, but for those
that pass a limit. -/
theorem isMultipliedOut_of_distributionRound {e : Expr}
    (unchanged : (distributionRound e).changed = false) :
    e.AllParts fun part => part.IsMultipliedOut ∨ part.PassesLimit := by
  simp only [distributionRound, Bool.or_eq_false_iff] at unchanged
  obtain ⟨⟨expanded, distributed⟩, -⟩ := unchanged
  have same := everywhere_truthful_of_forall (expandPower_truthful maxTermCount) e expanded
  rw [same, distribute] at distributed
  have powers := unfired_of_everywhere (expandPower_truthful maxTermCount) expanded
  have products := unfired_of_everywhere distributeNode_truthful distributed
  refine (powers.and products).mono fun part quiet => ?_
  obtain ⟨power, product⟩ := quiet
  unfold Expr.IsMultipliedOut
  split
  · exact isMultipliedOut_of_distributeNode product
  · exact isMultipliedOut_of_expandPower power
  · exact .inl trivial

/-- Where repeated distribution comes to rest, no operand of a product is a sum and no sum is raised
to an integer from 2 to 16, unless that would pass a limit. -/
theorem distributeFully_isMultipliedOut {e : Expr}
    (stops : StopsWithin distributionRound maxDistributionRounds e) :
    (distributeFully e).expr.AllParts fun part => part.IsMultipliedOut ∨ part.PassesLimit :=
  isMultipliedOut_of_distributionRound (repeatPass_unchanged distributionRound_truthful stops)

/-- A product of a sum and a square is multiplied out. -/
theorem distributeFully_square_isMultipliedOut :
    StopsWithin distributionRound maxDistributionRounds
      (.node .multiply [.node .add [.ident "x", .ident "y"],
        .node .power [.node .add [.ident "x", .one], .ofInt 2]]) ∧
    (distributeFully (.node .multiply [.node .add [.ident "x", .ident "y"],
      .node .power [.node .add [.ident "x", .one], .ofInt 2]])).expr.AllParts
        fun part => part.IsMultipliedOut ∨ part.PassesLimit :=
  have stops : StopsWithin distributionRound maxDistributionRounds
      (.node .multiply [.node .add [.ident "x", .ident "y"],
        .node .power [.node .add [.ident "x", .one], .ofInt 2]]) := by decide +kernel
  ⟨stops, distributeFully_isMultipliedOut stops⟩

/-- A sum of 65 addends stays an operand of a product, although nothing changes any more. -/
theorem distributeFully_of_long_sum :
    StopsWithin distributionRound maxDistributionRounds
      (.node .multiply [.ident "y", .node .add (List.replicate 65 (.ident "x"))]) ∧
    ¬ (distributeFully (.node .multiply
      [.ident "y", .node .add (List.replicate 65 (.ident "x"))])).expr.AllParts
        Expr.IsMultipliedOut := by
  have same : distributeFully (.node .multiply
      [.ident "y", .node .add (List.replicate 65 (.ident "x"))]) =
      ⟨.node .multiply [.ident "y", .node .add (List.replicate 65 (.ident "x"))], false⟩ := by
    decide +kernel
  refine ⟨by decide +kernel, fun multiplied => ?_⟩
  rw [same] at multiplied
  have factors := (Expr.allParts_node.mp multiplied).1
  have flat := factors (.node .add (List.replicate 65 (.ident "x"))) (by simp)
  cases flat

end SymbolicAlgebra
