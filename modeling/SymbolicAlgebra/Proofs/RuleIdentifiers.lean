import SymbolicAlgebra.Proofs.CallRules
import SymbolicAlgebra.Proofs.Cancellation
import SymbolicAlgebra.Proofs.CanonicalOperands
import SymbolicAlgebra.Proofs.ChangeFlags
import SymbolicAlgebra.Proofs.Expansion
import SymbolicAlgebra.Proofs.Identifiers
import SymbolicAlgebra.Proofs.LikeTerms
import SymbolicAlgebra.Proofs.SumForm
import SymbolicAlgebra.Rule.Arithmetic
import SymbolicAlgebra.Rule.OperandOrder

/-! The passes of the normal form bring in no identifier: what a rule leaves is built from parts of
what it found and from numerals. -/
namespace SymbolicAlgebra

open SymbolicAlgebra.Expr

variable {S : Set String} {e a b : Expr} {xs : List Expr}

/-! ## Differences, flat nodes, order -/

theorem namesIn_toSums (h : e.NamesIn S) : (toSums e).expr.NamesIn S := by
  refine NamesIn.everywhere (fun e h => ?_) h
  unfold differenceToSum
  split
  · obtain ⟨left, right⟩ : NamesIn S _ ∧ NamesIn S _ := by simpa using h
    exact namesIn_node.mpr
      (namesIn_append (namesIn_addends.mpr left) (by simpa using right.negate))
  · exact h

theorem namesIn_subtractFrom {run : List Expr} (hr : ∀ y ∈ run, y.NamesIn S)
    (h : ∀ y ∈ xs, y.NamesIn S) : (subtractFrom run xs).NamesIn S := by
  induction xs generalizing run with
  | nil => exact namesIn_sum.mpr hr
  | cons x xs ih =>
    obtain ⟨first, others⟩ := List.forall_mem_cons.mp h
    rw [subtractFrom]
    split
    · exact ih (by simpa using ⟨hr, first.unsigned⟩) others
    · exact ih (namesIn_append hr (by simpa using first)) others

theorem namesIn_toDifferences (h : e.NamesIn S) : (toDifferences e).expr.NamesIn S := by
  refine NamesIn.everywhere (fun e h => ?_) h
  unfold sumToDifference
  split
  case h_1 x y xs =>
    have moved : ∀ z ∈ (bringPositiveForward (x :: y :: xs)).1, z.NamesIn S := fun z member =>
      namesIn_node.mp h z ((bringPositiveForward_perm _).mem_iff.mp member)
    split
    case h_1 first rest _ same =>
      rw [same] at moved
      obtain ⟨front, others⟩ := List.forall_mem_cons.mp moved
      split
      · exact namesIn_subtractFrom (by simpa using front) others
      · exact namesIn_node.mpr moved
    case h_2 => simp
  case h_2 => exact h

theorem namesIn_splice (op : Operator) (h : ∀ y ∈ xs, y.NamesIn S) :
    ∀ y ∈ splice op xs, y.NamesIn S := by
  induction xs with
  | nil => exact h
  | cons x xs ih =>
    obtain ⟨first, others⟩ := List.forall_mem_cons.mp h
    unfold splice
    split
    · cases ‹_ = _›
    · cases ‹_ = _›
      split
      · exact namesIn_append (namesIn_node.mp first) (ih others)
      · exact List.forall_mem_cons.mpr ⟨first, ih others⟩
    · cases ‹_ = _›
      exact List.forall_mem_cons.mpr ⟨first, ih others⟩

theorem namesIn_flatten (h : e.NamesIn S) : (flatten e).expr.NamesIn S := by
  refine NamesIn.everywhere (fun e h => ?_) h
  unfold flattenNode
  split
  case h_1 op xs =>
    have flat := namesIn_splice op (namesIn_node.mp h)
    split
    · split
      · cases op <;> exact namesIn_ofInt _
      · simp_all [Step.new]
      · simp_all
    · exact h
  case h_2 => exact h

theorem namesIn_orderOperands (h : e.NamesIn S) : (orderOperands e).expr.NamesIn S := by
  refine NamesIn.everywhere (fun e h => ?_) h
  unfold orderOperandsNode
  split
  · split
    · split
      · exact h
      · exact namesIn_node.mpr fun y member =>
          namesIn_node.mp h y ((List.mergeSort_perm _ _).mem_iff.mp member)
    · exact h
  · exact h

/-! ## Calls -/

theorem namesIn_atNumeral? {f : NamedFunction} {n : Numeral} {value : Expr}
    (found : f.atNumeral? n = some value) : value.NamesIn S := by
  unfold NamedFunction.atNumeral? at found
  split at found
  case h_4 =>
    obtain ⟨root, -, rfl⟩ := Option.map_eq_some_iff.mp found
    exact namesIn_number root
  case h_6 => cases found
  all_goals
    split at found <;> cases found
    simp

theorem namesIn_special? {f : NamedFunction} {value : Expr} (h : a.NamesIn S)
    (found : f.special? a = some value) : value.NamesIn S := by
  unfold NamedFunction.special? at found
  split at found
  · unfold NamedFunction.atZero? at found
    split at found <;> cases found <;> simp
  · split at found
    · exact namesIn_atNumeral? found
    · split at found <;> cases found
      simp
    · split at found <;> cases found
      simp_all
    · cases found

theorem namesIn_evaluateCall {f : NamedFunction} (h : a.NamesIn S) :
    (evaluateCall f a).expr.NamesIn S := by
  unfold evaluateCall
  split
  · exact namesIn_special? h ‹_›
  · exact namesIn_apply.mpr h

theorem namesIn_evaluateUnaryCall {f : NamedFunction} (h : a.NamesIn S) :
    (evaluateUnaryCall f a).expr.NamesIn S := by
  unfold evaluateUnaryCall
  split
  · exact (namesIn_evaluateCall h.unsigned).negate
  · split
    · exact namesIn_evaluateCall h.unsigned
    · exact namesIn_evaluateCall h

theorem namesIn_evaluateAnyCall (h : e.NamesIn S) : (evaluateAnyCall e).expr.NamesIn S := by
  unfold evaluateAnyCall
  split
  · exact namesIn_evaluateUnaryCall (by simpa using h)
  · unfold evaluateLogarithm
    split
    · exact namesIn_one
    · split
      · exact namesIn_zero
      · exact h
  · exact h

theorem namesIn_reciprocalCall? {r : Expr} (h : e.NamesIn S) (found : e.reciprocalCall? = some r) :
    r.NamesIn S := by
  unfold Expr.reciprocalCall? at found
  split at found
  · obtain ⟨g, -, rfl⟩ := Option.map_eq_some_iff.mp found
    simpa using h
  · cases found

theorem namesIn_raiseReciprocal (ha : a.NamesIn S) (hb : b.NamesIn S) :
    (raiseReciprocal a b).expr.NamesIn S := by
  have below := namesIn_factors.mpr hb
  unfold raiseReciprocal
  split
  · exact namesIn_div.mpr ⟨ha, namesIn_product.mpr below⟩
  · rename_i before r after found
    obtain ⟨x, same, reciprocal⟩ := eq_append_of_splitAtReciprocal found
    rw [same] at below
    have hr : r.NamesIn S := namesIn_reciprocalCall? (below x (by simp)) reciprocal
    have top : ∀ y ∈ (if a.isOne then [] else a.factors) ++ [r], y.NamesIn S := by
      refine namesIn_append ?_ (by simpa using hr)
      split
      · simp
      · exact namesIn_factors.mpr ha
    have rest : ∀ y ∈ before ++ after, y.NamesIn S := by
      intro y member
      apply below
      simp only [List.mem_append, List.mem_cons] at member ⊢
      tauto
    dsimp only [Step.new]
    split
    · exact namesIn_product.mpr top
    · exact namesIn_div.mpr ⟨namesIn_product.mpr top, namesIn_product.mpr rest⟩

theorem namesIn_normalizeCalls (h : e.NamesIn S) : (normalizeCalls e).expr.NamesIn S := by
  refine NamesIn.everywhere (fun e h => ?_) h
  unfold normalizeCall
  split
  · obtain ⟨top, bottom⟩ : NamesIn S _ ∧ NamesIn S _ := by simpa using h
    exact namesIn_raiseReciprocal top bottom
  · exact namesIn_evaluateAnyCall h

/-! ## Expansion -/

theorem namesIn_powerTerms {expanded : List Expr} (rounds : Nat) (h : ∀ y ∈ xs, y.NamesIn S)
    (he : ∀ y ∈ expanded, y.NamesIn S) : ∀ y ∈ powerTerms xs rounds expanded, y.NamesIn S := by
  induction rounds generalizing expanded with
  | zero => exact he
  | succ rounds ih =>
    apply ih
    intro y member
    obtain ⟨t, ht, inside⟩ := List.mem_flatMap.mp member
    obtain ⟨o, ho, rfl⟩ := List.mem_map.mp inside
    exact (he t ht).times (h o ho)

theorem namesIn_expandPower (limit : Nat) (h : e.NamesIn S) :
    (expandPower limit e).expr.NamesIn S := by
  unfold expandPower
  split
  · have terms := h
    simp only [namesIn_node, List.forall_mem_cons] at terms
    split
    · split
      · exact namesIn_sum.mpr (namesIn_powerTerms _ terms.1 terms.1)
      · exact h
    · exact h
  · exact h

theorem namesIn_timesAll (h : ∀ y ∈ xs, y.NamesIn S) : (timesAll xs).NamesIn S := by
  cases xs with
  | nil => exact namesIn_one
  | cons x xs =>
    obtain ⟨first, others⟩ := List.forall_mem_cons.mp h
    exact List.foldlRecOn xs _ first fun acc ha y member => ha.times (others y member)

theorem namesIn_spread {factors before terms after : List Expr}
    (found : splitAtSum factors = some (before, terms, after))
    (h : (Expr.node .multiply factors).NamesIn S) : (spread before terms after).NamesIn S := by
  rw [eq_append_of_splitAtSum found] at h
  simp only [namesIn_node, List.forall_mem_append, List.forall_mem_cons] at h
  obtain ⟨left, middle, right⟩ := h
  refine namesIn_sum.mpr fun y member => ?_
  obtain ⟨t, ht, rfl⟩ := List.mem_map.mp member
  exact namesIn_timesAll
    (namesIn_append left (List.forall_mem_cons.mpr ⟨middle t ht, right⟩))

theorem namesIn_distributeNode (h : e.NamesIn S) : (distributeNode e).expr.NamesIn S := by
  unfold distributeNode
  split
  · split
    · split
      · exact namesIn_spread ‹_› h
      · exact h
    · exact h
  · exact h

theorem namesIn_distributeLoneSum (h : e.NamesIn S) : (distributeLoneSum e).expr.NamesIn S := by
  refine NamesIn.everywhere (fun e h => ?_) h
  unfold distributeLoneSumNode
  split
  · split
    · split
      · exact namesIn_spread ‹_› h
      · exact h
    · exact h
  · exact h

theorem namesIn_distributionRound (h : e.NamesIn S) : (distributionRound e).expr.NamesIn S :=
  namesIn_flatten (NamesIn.everywhere (fun _ => namesIn_distributeNode)
    (NamesIn.everywhere (fun _ => namesIn_expandPower _) h))

theorem namesIn_distributeFully (h : e.NamesIn S) : (distributeFully e).expr.NamesIn S := by
  have repeated (rounds : Nat) {e : Expr} (h : e.NamesIn S) :
      (repeatPass distributionRound rounds e).expr.NamesIn S := by
    induction rounds generalizing e with
    | zero => exact h
    | succ rounds ih =>
      rw [repeatPass]
      split
      · exact ih (namesIn_distributionRound h)
      · exact namesIn_distributionRound h
  exact repeated _ h

/-! ## Trimming -/

theorem namesIn_bitwise (op : Operator) (h : ∀ y ∈ xs, y.NamesIn S) : (bitwise op xs).NamesIn S := by
  match xs with
  | [] => exact namesIn_zero
  | [x] => simpa [bitwise] using h
  | x :: y :: ys => simpa [bitwise] using h

theorem namesIn_dropPairs {kept : List Expr} (hk : ∀ y ∈ kept, y.NamesIn S)
    (h : ∀ y ∈ xs, y.NamesIn S) : ∀ y ∈ dropPairs kept xs, y.NamesIn S := by
  induction xs generalizing kept with
  | nil => exact hk
  | cons x xs ih =>
    obtain ⟨first, others⟩ := List.forall_mem_cons.mp h
    rw [dropPairs]
    split
    · exact ih (fun y member => hk y (List.mem_of_mem_erase member)) others
    · exact ih (namesIn_append hk (by simpa using first)) others

theorem namesIn_trim (h : e.NamesIn S) : (trim e).expr.NamesIn S := by
  refine NamesIn.everywhere (fun e h => ?_) h
  have repeats {xs : List Expr} (h : ∀ y ∈ xs, y.NamesIn S) : ∀ y ∈ dropRepeats xs, y.NamesIn S :=
    fun y member => h y ((dropRepeats_sublist xs).subset member)
  unfold trimNode
  split
  case h_1 => exact namesIn_sum.mpr (namesIn_filter (namesIn_node.mp h))
  case h_2 =>
    unfold trimProduct
    split
    · exact namesIn_zero
    · exact namesIn_product.mpr (namesIn_filter (namesIn_node.mp h))
  case h_3 => exact namesIn_bitwise _ (namesIn_filter (repeats (namesIn_node.mp h)))
  case h_4 =>
    unfold trimBitAnd
    split
    · exact namesIn_zero
    · exact namesIn_bitwise _ (repeats (namesIn_node.mp h))
  case h_5 =>
    exact namesIn_bitwise _ (namesIn_filter (namesIn_dropPairs (by simp) (namesIn_node.mp h)))
  case h_11 => exact h
  -- The rules on two operands leave one of them, its negation or a constant.
  all_goals
    simp only [namesIn_node, List.forall_mem_cons] at h
    simp only [trimDifference, trimQuotient, trimPower, trimShift]
    repeat' split
    all_goals simp [Step.new, Step.same, undefinedQuotient, h]

end SymbolicAlgebra
