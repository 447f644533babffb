import SymbolicAlgebra.Factor.Grouping
import SymbolicAlgebra.Proofs.CanonicalOperands
import SymbolicAlgebra.Quotient.CommonDenominator
import SymbolicAlgebra.Quotient.FactoredSides
import SymbolicAlgebra.Quotient.Reciprocal
import SymbolicAlgebra.Rule.Call
import SymbolicAlgebra.Rule.Trim
import SymbolicAlgebra.Sum.Expansion

/-! What it means that a rule did not fire: the tree is as it was. Rules that return what they were
given in all their other branches say so by their form; the rules here count what they drop, or
collect flags on the way. -/
namespace SymbolicAlgebra

/-- A step that did not fire leaves the expression it was made for. -/
def Step.Truthful (s : Step) (e : Expr) : Prop := s.changed = false → s.expr = e

theorem Step.eq_same {s : Step} {e : Expr} (truthful : s.Truthful e)
    (unchanged : s.changed = false) : s = .same e := by
  obtain ⟨expr, changed⟩ := s
  obtain rfl : changed = false := unchanged
  exact congrArg Step.same (truthful rfl)

/-- Associative operators have two operands or more, all others exactly two, and numerals are
exact. -/
def Expr.IsWellFormed : Expr → Prop
  | .number x => x.isExact
  | .complex z => z.re.isExact ∧ z.im.isExact
  | .node op xs => 2 ≤ xs.length ∧ (op.isAssociative = false → xs.length = 2)
  | _ => True

instance : DecidablePred Expr.IsWellFormed
  | .number _ => inferInstanceAs (Decidable (_ = true))
  | .complex _ => inferInstanceAs (Decidable (_ ∧ _))
  | .node _ _ => inferInstanceAs (Decidable (_ ∧ (_ → _)))
  | .ident _ | .call _ _ => .isTrue trivial

namespace Step

variable {s : Step} {e : Expr}

@[simp] theorem truthful_new (e a : Expr) : (new a).Truthful e := nofun

@[simp] theorem truthful_same (e : Expr) : (same e).Truthful e := fun _ => rfl

theorem truthful_of_changed (h : s.changed = true) : s.Truthful e :=
  fun unchanged => absurd (unchanged.symm.trans h) nofun

end Step

/-! ## A rule at every node -/

section Everywhere

variable {rule : Expr → Step}

theorem everywhereAll_truthful {xs : List Expr}
    (each : ∀ x ∈ xs, (everywhere rule x).Truthful x)
    (unchanged : (everywhereAll rule xs).2 = false) : (everywhereAll rule xs).1 = xs := by
  induction xs with
  | nil => rfl
  | cons x xs ih =>
    obtain ⟨here, there⟩ := List.forall_mem_cons.mp each
    rw [everywhereAll, Bool.or_eq_false_iff] at unchanged
    rw [everywhereAll, here unchanged.1, ih there unchanged.2]

/-- Below a step that did not fire nothing has changed, so each rule that was tried met the tree as
it was. -/
theorem everywhere_truthful {e : Expr} (each : e.AllParts fun part => (rule part).Truthful part) :
    (everywhere rule e).Truthful e := by
  induction e with
  | number x => exact each
  | complex z => exact each
  | ident name => exact each
  | call f xs ih =>
    obtain ⟨here, below⟩ := Expr.allParts_call.mp each
    intro unchanged
    rw [everywhere, Bool.or_eq_false_iff] at unchanged
    have same := everywhereAll_truthful (fun x member => ih x member (below x member)) unchanged.1
    rw [same] at unchanged
    rw [everywhere, same]
    exact here unchanged.2
  | node op xs ih =>
    obtain ⟨here, below⟩ := Expr.allParts_node.mp each
    intro unchanged
    rw [everywhere, Bool.or_eq_false_iff] at unchanged
    have same := everywhereAll_truthful (fun x member => ih x member (below x member)) unchanged.1
    rw [same] at unchanged
    rw [everywhere, same]
    exact here unchanged.2

theorem everywhere_truthful_of_forall (each : ∀ part, (rule part).Truthful part) (e : Expr) :
    (everywhere rule e).Truthful e :=
  everywhere_truthful (.of_forall each e)

end Everywhere

/-! ## Nesting, order and signs -/

theorem flattenNode_truthful (e : Expr) : (flattenNode e).Truthful e := by
  cases e with
  | node op xs =>
    rw [flattenNode]
    split
    · split
      · exact Step.truthful_new _ _
      · exact Step.truthful_new _ _
      · intro unchanged
        have flat : splice op xs = xs := splice_of_flat fun x member => by
          simpa using List.any_eq_false.mp unchanged x member
        exact congrArg (Expr.node op) flat
    · exact Step.truthful_same _
  | _ => exact Step.truthful_same _

theorem orderOperandsNode_truthful (e : Expr) : (orderOperandsNode e).Truthful e := by
  unfold orderOperandsNode
  split
  · split
    · split <;> simp
    · exact Step.truthful_same _
  · exact Step.truthful_same _

theorem numbersFirstNode_truthful (e : Expr) : (numbersFirstNode e).Truthful e := by
  unfold numbersFirstNode
  split
  · split <;> simp
  · exact Step.truthful_same _

theorem bringPositiveForward_unmoved {xs : List Expr} (h : (bringPositiveForward xs).2 = false) :
    (bringPositiveForward xs).1 = xs := by
  cases xs with
  | nil => rfl
  | cons x xs =>
    revert h
    rw [bringPositiveForward]
    split
    · split
      · nofun
      · exact fun _ => rfl
    · exact fun _ => rfl

theorem orderAddends_truthful (e : Expr) : (orderAddends e).Truthful e := by
  unfold orderAddends
  split
  · exact fun unmoved => congrArg (Expr.node .add) (bringPositiveForward_unmoved unmoved)
  · exact Step.truthful_same _

theorem sumToDifference_truthful (e : Expr) : (sumToDifference e).Truthful e := by
  unfold sumToDifference
  split
  · rename_i x y xs
    have unmoved := @bringPositiveForward_unmoved (x :: y :: xs)
    split
    · rename_i first rest moved found
      rw [found] at unmoved
      split
      · exact Step.truthful_new _ _
      · exact fun h => congrArg (Expr.node .add) (unmoved h)
    · rename_i moved found
      rw [found] at unmoved
      exact fun h => congrArg (Expr.node .add) (unmoved h)
  · exact Step.truthful_same _

theorem differenceToSum_truthful (e : Expr) : (differenceToSum e).Truthful e := by
  unfold differenceToSum
  split <;> simp

/-! ## Identities and absorbing operands -/

theorem sum_eq_node {xs : List Expr} (h : 2 ≤ xs.length) : Expr.sum xs = .node .add xs := by
  match xs, h with
  | _ :: _ :: _, _ => rfl

theorem product_eq_node {xs : List Expr} (h : 2 ≤ xs.length) :
    Expr.product xs = .node .multiply xs := by
  match xs, h with
  | _ :: _ :: _, _ => rfl

theorem bitwise_eq_node {op : Operator} {xs : List Expr} (h : 2 ≤ xs.length) :
    bitwise op xs = .node op xs := by
  match xs, h with
  | _ :: _ :: _, _ => rfl

theorem dropRepeats_sublist (xs : List Expr) : (dropRepeats xs).Sublist xs := by
  induction xs with
  | nil => exact .slnil
  | cons x xs ih => exact (List.filter_sublist.trans ih).cons_cons x

/-- Every operand that is not alone shortens what is left. -/
theorem dropPairs_of_length (kept xs : List Expr) :
    (dropPairs kept xs).length ≤ kept.length + xs.length ∧
      ((dropPairs kept xs).length = kept.length + xs.length → dropPairs kept xs = kept ++ xs) := by
  induction xs generalizing kept with
  | nil => simp [dropPairs]
  | cons x xs ih =>
    rw [dropPairs, List.length_cons]
    split
    · rename_i member
      have shorter := List.length_erase_of_mem member
      have bound := (ih (kept.erase x)).1
      constructor
      · omega
      · intro long
        omega
    · obtain ⟨bound, whole⟩ := ih (kept ++ [x])
      rw [List.length_append, List.length_singleton] at bound whole
      constructor
      · omega
      · intro long
        rw [whole (by omega), List.append_assoc, List.singleton_append]

/-- A node that is rebuilt from some of its operands has lost some of them or is as it was. -/
theorem rebuilt_truthful {build : List Expr → Expr} {op : Operator} {xs kept : List Expr}
    (builds : build xs = .node op xs) (all : kept.length = xs.length → kept = xs) :
    (rebuilt build xs kept).Truthful (.node op xs) := by
  intro unchanged
  have same : kept.length = xs.length := by simpa [rebuilt] using unchanged
  rw [rebuilt, all same, builds]

theorem trimProduct_truthful {xs : List Expr} (two : 2 ≤ xs.length) :
    (trimProduct xs).Truthful (.node .multiply xs) := by
  unfold trimProduct
  split
  · exact Step.truthful_new _ _
  · exact rebuilt_truthful (product_eq_node two) List.filter_sublist.eq_of_length

theorem trimBitAnd_truthful {xs : List Expr} (two : 2 ≤ xs.length) :
    (trimBitAnd xs).Truthful (.node .bitAnd xs) := by
  unfold trimBitAnd
  split
  · exact Step.truthful_new _ _
  · intro unchanged
    have same : (dropRepeats xs).length = xs.length := by
      simpa using (Bool.or_eq_false_iff.mp unchanged).1
    have all := (dropRepeats_sublist xs).eq_of_length same
    exact (congrArg (bitwise .bitAnd) all).trans (bitwise_eq_node two)

theorem trimDifference_truthful (a b : Expr) : (trimDifference a b).Truthful (.sub a b) := by
  unfold trimDifference
  repeat' split
  all_goals simp

theorem trimQuotient_truthful (a b : Expr) : (trimQuotient a b).Truthful (.div a b) := by
  unfold trimQuotient
  repeat' split
  all_goals simp

theorem trimPower_truthful (a b : Expr) : (trimPower a b).Truthful (.pow a b) := by
  unfold trimPower
  repeat' split
  all_goals simp

theorem trimShift_truthful (op : Operator) (a b : Expr) :
    (trimShift op a b).Truthful (.node op [a, b]) := by
  unfold trimShift
  repeat' split
  all_goals simp

theorem trimNode_truthful {e : Expr}
    (two : ∀ op xs, e = .node op xs → op.isAssociative = true → 2 ≤ xs.length) :
    (trimNode e).Truthful e := by
  unfold trimNode
  split
  · rename_i xs
    exact rebuilt_truthful (sum_eq_node (two _ _ rfl rfl)) List.filter_sublist.eq_of_length
  · exact trimProduct_truthful (two _ _ rfl rfl)
  · rename_i xs
    exact rebuilt_truthful (bitwise_eq_node (two _ _ rfl rfl))
      (List.filter_sublist.trans (dropRepeats_sublist xs)).eq_of_length
  · exact trimBitAnd_truthful (two _ _ rfl rfl)
  · rename_i xs
    obtain ⟨bound, whole⟩ := dropPairs_of_length [] xs
    rw [List.length_nil, Nat.zero_add] at bound whole
    refine rebuilt_truthful (bitwise_eq_node (two _ _ rfl rfl)) fun long => ?_
    have shorter := List.length_filter_le (fun x : Expr => !x.isZero) (dropPairs [] xs)
    have all := whole (by omega)
    rw [all] at long ⊢
    exact List.filter_sublist.eq_of_length long
  · exact trimDifference_truthful _ _
  · exact trimQuotient_truthful _ _
  · exact trimPower_truthful _ _
  · exact trimShift_truthful _ _ _
  · exact trimShift_truthful _ _ _
  · exact Step.truthful_same _

/-! ## Cancellation -/

theorem flatten_quotient_of_sides {n d : Expr} (hn : n.sides? .divide = none)
    (hd : d.sides? .divide = none) : Quotient.flatten n d = ⟨n, d⟩ := by
  unfold Quotient.flatten
  split
  · simp [Expr.sides?] at hn
  · simp [Expr.sides?] at hd
  · rfl

theorem ofTerms_unchanged {q : Quotient} {top bottom : FactoredTerm}
    (h : (Cancellation.ofTerms q top bottom).changed = false) :
    (Cancellation.ofTerms q top bottom).expr = q.toExpr := by
  revert h
  unfold Cancellation.ofTerms
  split
  · exact fun _ => rfl
  · dsimp only
    split
    · exact fun _ => rfl
    · rename_i fired
      intro unchanged
      rw [Cancellation.changed, Bool.false_or, Bool.or_eq_false_iff] at unchanged
      obtain ⟨numeral, shared⟩ := unchanged
      dsimp only at numeral shared
      rw [numeral, shared] at fired
      exact absurd rfl fired

theorem ofNumerals_unchanged {x y : Numeral} (h : (Cancellation.ofNumerals x y).changed = false) :
    (Cancellation.ofNumerals x y).expr = .div (.number x) (.number y) := by
  simpa [Cancellation.ofNumerals, Cancellation.changed] using h

theorem ofFlat_unchanged {q : Quotient} (h : (Cancellation.ofFlat q).changed = false) :
    (Cancellation.ofFlat q).expr = q.toExpr := by
  obtain ⟨n, d⟩ := q
  revert h
  unfold Cancellation.ofFlat
  split
  · nofun
  · split
    · exact fun _ => rfl
    · split
      · nofun
      · split
        · rename_i x y hx hy
          intro unchanged
          dsimp only at hx hy
          subst hx hy
          exact ofNumerals_unchanged unchanged
        · exact ofTerms_unchanged

theorem reduceQuotient_truthful (n d : Expr) : (reduceQuotient n d).Truthful (.div n d) := by
  intro unchanged
  simp only [reduceQuotient, Cancellation.ofSides, Cancellation.changed, Bool.or_eq_false_iff,
    Option.isSome_eq_false_iff, Option.isNone_iff_eq_none] at unchanged
  obtain ⟨⟨⟨⟨hn, hd⟩, structural⟩, numeral⟩, shared⟩ := unchanged
  rw [flatten_quotient_of_sides hn hd] at structural numeral shared
  rw [reduceQuotient, Cancellation.ofSides, flatten_quotient_of_sides hn hd]
  exact ofFlat_unchanged (by simp [Cancellation.changed, structural, numeral, shared])

theorem reduceQuotientsNode_truthful (e : Expr) : (reduceQuotientsNode e).Truthful e := by
  unfold reduceQuotientsNode
  split
  · exact reduceQuotient_truthful _ _
  · unfold raiseBar
    split <;> simp
  · exact Step.truthful_same _

/-! ## Expansion -/

theorem expandPower_truthful (limit : Nat) (e : Expr) : (expandPower limit e).Truthful e := by
  unfold expandPower
  split
  · repeat' split
    all_goals simp [Expr.pow]
  · exact Step.truthful_same _

theorem splitExponent_truthful (e : Expr) : (splitExponent e).Truthful e := by
  unfold splitExponent
  split <;> simp

theorem splitNumerator_truthful (e : Expr) : (splitNumerator e).Truthful e := by
  unfold splitNumerator
  split <;> simp

theorem distributeNode_truthful (e : Expr) : (distributeNode e).Truthful e := by
  unfold distributeNode
  split
  · repeat' split
    all_goals simp
  · exact Step.truthful_same _

theorem distributionRound_truthful (e : Expr) : (distributionRound e).Truthful e := by
  intro unchanged
  simp only [distributionRound, Bool.or_eq_false_iff] at unchanged
  obtain ⟨⟨expanded, distributed⟩, merged⟩ := unchanged
  have first := everywhere_truthful_of_forall (expandPower_truthful maxTermCount) e expanded
  rw [first] at distributed merged
  have second := everywhere_truthful_of_forall distributeNode_truthful e distributed
  rw [distribute, second] at merged
  have third := everywhere_truthful_of_forall flattenNode_truthful e merged
  rw [distributionRound, first, distribute, second]
  exact third

/-- A repeated pass that never fired was tried once. -/
theorem repeatPass_truthful {pass : Expr → Step} {e : Expr} (rounds : Nat)
    (once : (pass e).Truthful e) : (repeatPass pass rounds e).Truthful e := by
  cases rounds with
  | zero => exact Step.truthful_same e
  | succ rounds =>
    rw [repeatPass]
    split
    · nofun
    · rename_i unchanged
      exact fun _ => once (by simpa using unchanged)

/-! ## Quotients and calls -/

theorem quotientToProduct_truthful (e : Expr) : (quotientToProduct e).Truthful e := by
  unfold quotientToProduct
  split <;> simp

theorem productToQuotient_truthful (e : Expr) : (productToQuotient e).Truthful e := by
  unfold productToQuotient
  split
  · split <;> simp
  · split <;> simp

theorem commonDenominatorNode_truthful (e : Expr) : (commonDenominatorNode e).Truthful e := by
  unfold commonDenominatorNode
  split
  · split <;> simp
  · exact Step.truthful_same _

theorem evaluateCall_truthful (f : NamedFunction) (arg : Expr) :
    (evaluateCall f arg).Truthful (.call f [arg]) := by
  unfold evaluateCall
  split
  · exact Step.truthful_new _ _
  · exact Step.truthful_same _

theorem evaluateAnyCall_truthful (e : Expr) : (evaluateAnyCall e).Truthful e := by
  unfold evaluateAnyCall
  split
  · unfold evaluateUnaryCall
    split
    · exact Step.truthful_new _ _
    · split
      · exact Step.truthful_new _ _
      · exact evaluateCall_truthful _ _
  · unfold evaluateLogarithm
    repeat' split
    all_goals simp
  · exact Step.truthful_same _

/-! ## Factoring -/

theorem factorSharedNode_truthful (e : Expr) : (factorSharedNode e).Truthful e := by
  unfold factorSharedNode
  split
  · split
    · split <;> simp
    · exact Step.truthful_same _
  · exact Step.truthful_same _

section Factoring

variable (simplify : Expr → Expr) (e : Expr)

theorem factorContent_truthful : (factorContent simplify e).Truthful e := by
  unfold factorContent
  repeat' split
  all_goals simp

theorem factorGroups_truthful : (factorGroups simplify e).Truthful e := by
  unfold factorGroups
  split
  · dsimp only
    repeat' split
    all_goals simp
  · exact Step.truthful_same _

theorem factorSquares_truthful : (factorSquares e).Truthful e := by
  unfold factorSquares
  split
  · dsimp only
    repeat' split
    all_goals simp
  · exact Step.truthful_same _

theorem factorCubes_truthful : (factorCubes simplify e).Truthful e := by
  unfold factorCubes
  split
  · dsimp only
    repeat' split
    all_goals simp
  · exact Step.truthful_same _

theorem factorRationalRoot_truthful : (factorRationalRoot e).Truthful e := by
  unfold factorRationalRoot
  dsimp only
  repeat' split
  all_goals simp

theorem factorQuadraticExactly_truthful : (factorQuadraticExactly e).Truthful e := by
  unfold factorQuadraticExactly
  dsimp only
  repeat' split
  all_goals simp

theorem factorQuadraticNearly_truthful (tolerance : Binary64) :
    (factorQuadraticNearly tolerance e).Truthful e := by
  unfold factorQuadraticNearly
  dsimp only
  split
  · exact factorQuadraticExactly_truthful e
  · repeat' split
    all_goals simp

end Factoring

end SymbolicAlgebra
