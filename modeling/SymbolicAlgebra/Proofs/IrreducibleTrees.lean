import SymbolicAlgebra.Proofs.IdleGathering

/-! What a tree looks like that no rule of a round applies to, and rounds that lead back to it. -/
namespace SymbolicAlgebra

open SymbolicAlgebra.Expr

variable {simplify : Expr → Expr}

theorem distributeLoneSumNode_truthful (e : Expr) : (distributeLoneSumNode e).Truthful e := by
  unfold distributeLoneSumNode
  split
  · repeat' split
    all_goals simp
  · exact Step.truthful_same _

theorem reduceFactoredNode_truthful (e : Expr) : (reduceFactoredNode simplify e).Truthful e := by
  unfold reduceFactoredNode
  split
  · split
    · exact Step.truthful_same _
    · dsimp only
      split
      · rename_i changed
        exact Step.truthful_of_changed changed
      · exact Step.truthful_same _
  · exact Step.truthful_same _

theorem splitAtQuotient_eq_none_iff (xs : List Expr) :
    splitAtQuotient xs = none ↔ ∀ x ∈ xs, x.sides? .divide = none := by
  induction xs with
  | nil => simp [splitAtQuotient]
  | cons x xs ih =>
    rw [List.forall_mem_cons, ← ih]
    cases found : x.sides? .divide with
    | none =>
      have later : splitAtQuotient (x :: xs) =
          (splitAtQuotient xs).map fun parts => (x :: parts.1, parts.2.1, parts.2.2) := by
        rw [splitAtQuotient.eq_def]
        split
        · rename_i same
          cases same
        · rename_i same
          cases same
          cases found
        · rename_i same
          cases same
          rfl
      rw [later, Option.map_eq_none_iff]
      simp
    | some p =>
      rw [eq_node_of_sides? found, splitAtQuotient]
      simp

theorem hasNumberFirst_sorted {e : Expr} (h : e.HasNumberFirst) : e.sorted.HasNumberFirst := by
  cases product : e.isNode .multiply with
  | true =>
    obtain ⟨xs, rfl⟩ := eq_node_of_isNode product
    rw [sorted_node]
    obtain ⟨x, rest, rfl, others⟩ | others := h.cases
    · rw [arranged_sorted_number_cons others]
      exact no_number_arranged others
    · exact fun y member => no_number_arranged others y (List.mem_of_mem_tail member)
  | false =>
    rw [← isNode_sorted] at product
    rw [HasNumberFirst.eq_def]
    split
    · rename_i same
      rw [same] at product
      cases product
    · trivial

/-! ## The shape of irreducible trees -/

namespace Expr.Irreducible

variable {s : Expr}

theorem idle (h : s.Irreducible simplify) (rule : Expr → Step)
    (member : rule ∈ roundRules simplify) : s.AllParts (Idle rule) :=
  h.mono fun _ all => all rule member

theorem sorted_eq (h : s.Irreducible simplify) : s.sorted = s := by
  have here := (h.idle orderOperandsNode (by simp [roundRules])).here
  have same := here.2
  rwa [orderOperandsNode_truthful s here.1] at same

theorem flat (h : s.Irreducible simplify) : s.AllParts IsFlat := by
  refine (h.idle flattenNode (by simp [roundRules])).mono fun part idle => ?_
  cases part with
  | node op xs =>
    intro associative
    have unchanged := idle.1
    rw [flattenNode, if_pos associative] at unchanged
    split at unchanged
    · cases unchanged
    · cases unchanged
    · rename_i none single
      have others (x : Expr) (member : x ∈ xs) : x.isNode op = false := by
        simpa using List.any_eq_false.mp unchanged x member
      rw [splice_of_flat others] at none single
      refine ⟨?_, others⟩
      rcases xs with _ | ⟨x, _ | ⟨y, ys⟩⟩
      · exact absurd rfl none
      · exact absurd rfl (single x)
      · exact Nat.le_add_left _ _
  | _ => trivial

theorem bars (h : s.Irreducible simplify) : s.AllParts HasBarOutside := by
  refine (h.idle reduceQuotientsNode (by simp [roundRules])).mono fun part idle => ?_
  have unchanged := idle.1
  rw [HasBarOutside.eq_def]
  split
  · rename_i xs
    replace unchanged : (raiseBar xs).changed = false := unchanged
    unfold raiseBar at unchanged
    split at unchanged
    · rename_i none
      exact (splitAtQuotient_eq_none_iff xs).mp none
    · cases unchanged
  · rename_i n d
    replace unchanged : (reduceQuotient n d).changed = false := unchanged
    simp only [reduceQuotient, Cancellation.ofSides, Cancellation.changed, Bool.or_eq_false_iff,
      Option.isSome_eq_false_iff, Option.isNone_iff_eq_none] at unchanged
    exact unchanged.1.1.1
  · trivial

theorem operands {op : Operator} {xs : List Expr} (h : (node op xs).Irreducible simplify) :
    ∀ x ∈ xs, x.Irreducible simplify := AllParts.operands h

theorem args {f : NamedFunction} {xs : List Expr} (h : (call f xs).Irreducible simplify) :
    ∀ x ∈ xs, x.Irreducible simplify := (allParts_call.mp h).2

theorem hasNumberFirst (h : s.Irreducible simplify) : s.HasNumberFirst := by
  cases product : s.isNode .multiply with
  | true =>
    obtain ⟨xs, rfl⟩ := eq_node_of_isNode product
    have idle := (h.idle collectNode (by simp [roundRules])).here
    have ordered := h.sorted_eq
    rw [← ordered] at idle
    obtain ⟨zs, -, first, result⟩ := collectProduct_of_sorted (h.flat.here rfl).1 idle
    have same := idle.2
    rw [ordered] at same
    rw [← same, show (collectNode (node .multiply xs)).expr = node .multiply zs from result]
    exact hasNumberFirst_sorted first
  | false =>
    rw [HasNumberFirst.eq_def]
    split
    · cases product
    · trivial

theorem numbers (h : s.Irreducible simplify) : s.AllParts HasNumberFirst :=
  (AllParts.parts h).mono fun _ part => hasNumberFirst part

end Expr.Irreducible

/-! ## A round on a tree that is irreducible but for the order of its operands -/

section Rounds

variable {t : Expr}

/-- A rule that leaves every tree alone of which it leaves the ordered tree alone. -/
theorem everywhere_of_sorted {rule : Expr → Step} (member : rule ∈ roundRules simplify)
    (alone : ∀ part, (rule part.sorted).changed = false → rule part = .same part)
    (h : t.sorted.Irreducible simplify) : everywhere rule t = .same t :=
  everywhere_eq_same (allParts_of_sorted (fun part idle => alone part (idle rule member).1) h)

/-- Gathering may move the operands of an irreducible tree, and puts numerals first. -/
theorem collectLike_of_sorted (h : t.sorted.Irreducible simplify) :
    (collectLike t).expr.sorted = t.sorted ∧ (collectLike t).expr.AllParts HasNumberFirst := by
  rw [collectLike]
  induction t with
  | number x => exact ⟨rfl, trivial⟩
  | complex z => exact ⟨rfl, trivial⟩
  | ident name => exact ⟨rfl, trivial⟩
  | call f xs ih =>
    rw [sorted_call] at h
    have each (x : Expr) (member : x ∈ xs) := ih x member (h.args _ (List.mem_map_of_mem member))
    rw [everywhere_call]
    show (Expr.call f _).sorted = _ ∧ (Expr.call f _).AllParts _
    rw [sorted_call, sorted_call, List.map_map]
    refine ⟨congrArg _ (List.map_congr_left fun x member => (each x member).1), ?_⟩
    exact allParts_call.mpr ⟨trivial, List.forall_mem_map.mpr fun x member => (each x member).2⟩
  | node op xs ih =>
    have operands (x : Expr) (member : x ∈ xs) : x.sorted.Irreducible simplify := by
      rw [sorted_node] at h
      exact h.operands _ ((arranged_perm op _).mem_iff.mpr (List.mem_map_of_mem member))
    have each (x : Expr) (member : x ∈ xs) := ih x member (operands x member)
    rw [everywhere_node]
    have same : (node op (xs.map fun x => (everywhere collectNode x).expr)).sorted =
        (node op xs).sorted := by
      rw [sorted_node, sorted_node, List.map_map]
      exact congrArg (fun ys => node op (op.arranged ys))
        (List.map_congr_left fun x member => (each x member).1)
    rw [← same] at h ⊢
    refine collectNode_of_sorted (List.forall_mem_map.mpr fun x member => ?_)
      (isFlat_of_sorted h.flat.here) (differenceToSum_of_sorted ?_) ?_
    · have irreducible := operands x member
      rw [← (each x member).1] at irreducible
      exact ⟨(each x member).2,
        allParts_of_sorted (fun _ => hasBarOutside_of_sorted) irreducible.bars,
        allParts_of_sorted (fun _ => isFlat_of_sorted) irreducible.flat⟩
    · exact (h.idle differenceToSum (by simp [roundRules])).here.1
    · exact (h.idle collectNode (by simp [roundRules])).here

theorem toSums_of_sorted (h : t.sorted.Irreducible simplify) : toSums t = .same t :=
  everywhere_of_sorted (by simp [roundRules])
    (fun _ idle => Step.eq_same (differenceToSum_truthful _) (differenceToSum_of_sorted idle)) h

/-- A round on a tree that is irreducible once its operands are in order puts them in order. -/
theorem round_of_sorted (h : t.sorted.Irreducible simplify) (first : t.AllParts HasNumberFirst) :
    round simplify t = t.sorted := by
  have flat : t.AllParts IsFlat := allParts_of_sorted (fun _ => isFlat_of_sorted) h.flat
  have calls : normalizeCalls t = .same t := by
    have idle : t.AllParts fun part => (normalizeCall part.sorted).changed = false :=
      allParts_of_sorted (fun part all => (all normalizeCall (by simp [roundRules])).1) h
    refine everywhere_eq_same ((idle.and (first.parts.and flat.parts)).mono ?_)
    exact fun part facts => normalizeCall_of_sorted facts.2.1 facts.2.2 facts.1
  have powers : expandPowers t = .same t := everywhere_of_sorted (by simp [roundRules])
    (fun part idle => Step.eq_same (expandPower_truthful _ _) (expandPower_of_sorted idle)) h
  have products : distributeLoneSum t = .same t := everywhere_of_sorted (by simp [roundRules])
    (fun part idle =>
      Step.eq_same (distributeLoneSumNode_truthful _) (distributeLoneSumNode_of_sorted idle)) h
  -- Only gathering moves anything, and the tree it leaves has the same ordered form.
  obtain ⟨gathered, numbers⟩ := collectLike_of_sorted h
  have whole : (collectLike t).expr.sorted.Irreducible simplify := gathered ▸ h
  have flat' : (collectLike t).expr.AllParts IsFlat :=
    allParts_of_sorted (fun _ => isFlat_of_sorted) whole.flat
  have trimmed : trim (collectLike t).expr = .same (collectLike t).expr := by
    have idle : (collectLike t).expr.AllParts fun part => (trimNode part.sorted).changed = false :=
      allParts_of_sorted (fun part all => (all trimNode (by simp [roundRules])).1) whole
    exact everywhere_eq_same ((idle.and flat').mono fun part facts =>
      trimNode_of_sorted facts.2 facts.1)
  have reduced : reduceQuotients t.sorted = .same t.sorted :=
    everywhere_eq_same ((h.idle _ (by simp [roundRules])).mono fun part idle =>
      Step.eq_same (reduceQuotientsNode_truthful part) idle.1)
  have factored : reduceFactored simplify t.sorted = .same t.sorted :=
    everywhere_eq_same ((h.idle _ (by simp [roundRules])).mono fun part idle =>
      Step.eq_same (reduceFactoredNode_truthful part) idle.1)
  have ordered : (orderOperands (collectLike t).expr).expr = t.sorted := gathered
  simp only [round, passes, List.foldl_cons, List.foldl_nil, Step.same, toSums_of_sorted h,
    flatten_of_flat flat,
    calls, powers, products, trimmed, flatten_of_flat flat', ordered, reduced, factored]

end Rounds

end SymbolicAlgebra
