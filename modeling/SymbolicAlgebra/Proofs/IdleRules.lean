import SymbolicAlgebra.NormalForm
import SymbolicAlgebra.Proofs.GatheringFlags
import SymbolicAlgebra.Proofs.OrderedShape

/-! Trees that no rule of a round applies to. A round leads back to such a tree from every tree that
differs from it in the order of operands. -/
namespace SymbolicAlgebra

open SymbolicAlgebra.Expr

/-- The rules of the passes of a round. -/
def roundRules (simplify : Expr → Expr) : List (Expr → Step) :=
  [differenceToSum, flattenNode, normalizeCall, expandPower maxDistributedTerms,
    distributeLoneSumNode, collectNode, trimNode, flattenNode, orderOperandsNode,
    reduceQuotientsNode, reduceFactoredNode simplify]

example (simplify : Expr → Expr) : passes simplify = (roundRules simplify).map everywhere := rfl

/-- The rule does not fire, and no more than the order of the operands is another after it. -/
def Idle (rule : Expr → Step) (e : Expr) : Prop :=
  (rule e).changed = false ∧ (rule e).expr.sorted = e

/-- Every rule of a round is idle at every node. -/
def Expr.Irreducible (simplify : Expr → Expr) (e : Expr) : Prop :=
  e.AllParts fun part => ∀ rule ∈ roundRules simplify, Idle rule part

instance (rule : Expr → Step) : DecidablePred (Idle rule) :=
  fun e => inferInstanceAs (Decidable ((rule e).changed = false ∧ (rule e).expr.sorted = e))

instance (simplify : Expr → Expr) : DecidablePred (Expr.Irreducible simplify) :=
  fun e => inferInstanceAs (Decidable (e.AllParts _))

/-! ## What a tree shares with its ordered form -/

theorem allParts_of_sorted {P Q : Expr → Prop} (imp : ∀ e : Expr, P e.sorted → Q e) {e : Expr}
    (h : e.sorted.AllParts P) : e.AllParts Q := by
  induction e with
  | number x => exact imp _ h
  | complex z => exact imp _ h
  | ident name => exact imp _ h
  | call f xs ih =>
    have here := imp _ h.here
    rw [sorted_call] at h
    refine allParts_call.mpr ⟨here, fun x member => ih x member ?_⟩
    exact (allParts_call.mp h).2 _ (List.mem_map_of_mem member)
  | node op xs ih =>
    have here := imp _ h.here
    rw [sorted_node] at h
    refine allParts_node.mpr ⟨here, fun x member => ih x member ?_⟩
    exact h.operands _ ((arranged_perm op _).mem_iff.mpr (List.mem_map_of_mem member))

section Operands

variable (op : Operator) {p : Expr → Bool}

theorem any_arranged (keeps : ∀ x : Expr, p x.sorted = p x) (xs : List Expr) :
    (op.arranged (xs.map sorted)).any p = xs.any p := by
  rw [(arranged_perm op _).any_eq, List.any_map]
  simp only [Function.comp_def, keeps]

theorem filter_map_sorted (keeps : ∀ x : Expr, p x.sorted = p x) (xs : List Expr) :
    (xs.map sorted).filter p = (xs.filter p).map sorted := by
  rw [List.filter_map]
  simp only [Function.comp_def, keeps]

theorem filter_arranged_perm (keeps : ∀ x : Expr, p x.sorted = p x) (xs : List Expr) :
    ((op.arranged (xs.map sorted)).filter p).Perm ((xs.filter p).map sorted) := by
  rw [← filter_map_sorted keeps]
  exact (arranged_perm op _).filter p

end Operands

theorem isFlat_of_sorted {e : Expr} (h : e.sorted.IsFlat) : e.IsFlat := by
  cases e with
  | node op xs =>
    rw [sorted_node] at h
    intro associative
    obtain ⟨long, others⟩ := h associative
    refine ⟨by rwa [Operator.length_arranged, List.length_map] at long, fun x member => ?_⟩
    rw [← isNode_sorted]
    exact others _ ((arranged_perm op _).mem_iff.mpr (List.mem_map_of_mem member))
  | _ => trivial

theorem sides?_eq_none_of_sorted {op : Operator} (unordered : op.isAssociative = false) {e : Expr}
    (h : e.sorted.sides? op = none) : e.sides? op = none := by
  rw [sides?_sorted e _ unordered, Option.map_eq_none_iff] at h
  exact h

theorem hasBarOutside_of_sorted {e : Expr} (h : e.sorted.HasBarOutside) : e.HasBarOutside := by
  rw [HasBarOutside.eq_def]
  split
  · rename_i xs
    rw [sorted_node] at h
    exact fun x member => sides?_eq_none_of_sorted rfl
      (h _ ((arranged_perm .multiply _).mem_iff.mpr (List.mem_map_of_mem member)))
  · rw [sorted_node] at h
    exact ⟨sides?_eq_none_of_sorted rfl h.1, sides?_eq_none_of_sorted rfl h.2⟩
  · trivial

/-! ## Rules that do not fire at the ordered tree -/

section Rules

variable {e : Expr}

theorem differenceToSum_of_sorted (h : (differenceToSum e.sorted).changed = false) :
    (differenceToSum e).changed = false := by
  unfold differenceToSum
  split
  · rw [sorted_node] at h
    cases h
  · rfl

theorem expandedPower?_sorted (e : Expr) : e.sorted.expandedPower? = e.expandedPower? := by
  rw [expandedPower?, expandedPower?, number?_sorted]

theorem expandPower_of_sorted {limit : Nat} (h : (expandPower limit e.sorted).changed = false) :
    (expandPower limit e).changed = false := by
  unfold expandPower
  split
  · rename_i terms exponent
    replace h : (expandPower limit
        (.node .power [(node .add terms).sorted, exponent.sorted])).changed = false := h
    rw [sorted_node, expandPower, expandedPower?_sorted, Operator.length_arranged,
      List.length_map] at h
    split
    · rename_i n found
      rw [found] at h
      dsimp only at h
      split
      · rename_i few
        rw [if_pos few] at h
        exact h
      · rfl
    · rfl
  · rfl

/-- The sums among the factors: the one that splits them, and those after it. -/
theorem filter_isNode_add (xs : List Expr) :
    xs.filter (Expr.isNode .add) =
      match splitAtSum xs with
      | none => []
      | some (_, terms, after) => .node .add terms :: after.filter (Expr.isNode .add) := by
  induction xs with
  | nil => rfl
  | cons x xs ih =>
    cases sum : x.isNode .add with
    | true =>
      obtain ⟨terms, rfl⟩ := eq_node_of_isNode sum
      rfl
    | false =>
      have later : splitAtSum (x :: xs) =
          (splitAtSum xs).map fun parts => (x :: parts.1, parts.2.1, parts.2.2) := by
        cases x with
        | node op ys => cases op <;> first | rfl | cases sum
        | _ => rfl
      rw [List.filter_cons_of_neg (by simp [sum]), later, ih]
      cases splitAtSum xs <;> rfl

/-- A product is multiplied out over the only sum among its factors. -/
theorem distributeLoneSumNode_changed (xs : List Expr) :
    (distributeLoneSumNode (.node .multiply xs)).changed = true ↔
      ∃ terms, xs.filter (Expr.isNode .add) = [.node .add terms] ∧
        terms.length ≤ maxDistributedTerms := by
  rw [distributeLoneSumNode, filter_isNode_add]
  cases splitAtSum xs with
  | none => exact ⟨nofun, fun ⟨_, nothing, _⟩ => absurd nothing nofun⟩
  | some split =>
    obtain ⟨before, terms, after⟩ := split
    dsimp only
    have alone : (!after.any (Expr.isNode .add)) = true ↔ after.filter (Expr.isNode .add) = [] := by
      rw [List.filter_eq_nil_iff, Bool.not_eq_true', List.any_eq_false]
    split
    · rename_i fires
      exact ⟨fun _ => ⟨terms, by rw [alone.mp fires.2], fires.1⟩, fun _ => rfl⟩
    · rename_i idle
      refine ⟨nofun, fun ⟨others, only, few⟩ => absurd ⟨?_, ?_⟩ idle⟩
      · rw [List.cons.injEq, Expr.node.injEq] at only
        rwa [only.1.2]
      · rw [List.cons.injEq] at only
        exact alone.mpr only.2

theorem distributeLoneSumNode_of_sorted (h : (distributeLoneSumNode e.sorted).changed = false) :
    (distributeLoneSumNode e).changed = false := by
  cases product : e.isNode .multiply with
  | true =>
    obtain ⟨xs, rfl⟩ := eq_node_of_isNode product
    rw [← Bool.not_eq_true, sorted_node, distributeLoneSumNode_changed] at h
    rw [← Bool.not_eq_true, distributeLoneSumNode_changed]
    rintro ⟨terms, only, few⟩
    have perm := filter_arranged_perm .multiply (fun x => isNode_sorted x .add) xs
    rw [only, List.map_singleton, List.perm_singleton, sorted_node] at perm
    refine h ⟨_, perm, ?_⟩
    rwa [Operator.length_arranged, List.length_map]
  | false =>
    unfold distributeLoneSumNode
    split
    · cases product
    · rfl

/-! ## Calls -/

theorem special?_isSome_sorted (f : NamedFunction) (arg : Expr) :
    (f.special? arg.sorted).isSome = (f.special? arg).isSome := by
  cases arg with
  | call g xs =>
    rw [sorted_call]
    cases f <;> rfl
  | node op xs =>
    cases found : (node op xs).sides? .power with
    | some p =>
      rw [eq_node_of_sides? found]
      show (f.special? (.pow p.1.sorted p.2.sorted)).isSome = (f.special? (.pow p.1 p.2)).isSome
      cases f with
      | ln =>
        show (if p.1.sorted.isIdent "e" then some p.2.sorted else none).isSome =
          (if p.1.isIdent "e" then some p.2 else none).isSome
        rw [isIdent_sorted]
        split <;> rfl
      | _ => rfl
    | none =>
      have other (ys : List Expr) (h : (node op ys).sides? .power = none) :
          f.special? (.node op ys) = none := by
        unfold NamedFunction.special?
        split
        · rename_i zero
          cases zero
        · split <;> first | rfl | simp_all [sides?]
      have found' := sides?_sorted (node op xs) .power rfl
      rw [found, sorted_node] at found'
      rw [sorted_node, other _ found', other _ found]
  | _ => rfl

theorem evaluateUnaryCall_changed (f : NamedFunction) (arg : Expr) :
    (evaluateUnaryCall f arg).changed =
      ((arg.isNegative && (f.isOdd || f.isEven)) || (f.special? arg).isSome) := by
  unfold evaluateUnaryCall evaluateCall
  cases arg.isNegative <;> cases f.isOdd <;> cases f.isEven <;> cases f.special? arg <;> rfl

theorem reciprocalCall?_isSome_sorted (x : Expr) :
    x.sorted.reciprocalCall?.isSome = x.reciprocalCall?.isSome := by
  cases x with
  | call f xs =>
    rw [sorted_call]
    match xs with
    | [] => rfl
    | [x] => simp [reciprocalCall?]
    | _ :: _ :: _ => rfl
  | node op xs => rw [sorted_node]; rfl
  | _ => rfl

theorem splitAtReciprocal_isSome (xs : List Expr) :
    (splitAtReciprocal xs).isSome = xs.any fun x => x.reciprocalCall?.isSome := by
  induction xs with
  | nil => rfl
  | cons x xs ih =>
    rw [splitAtReciprocal, List.any_cons, ← ih]
    cases x.reciprocalCall? with
    | none => simp
    | some r => rfl

theorem evaluateAnyCall_of_sorted (first : e.AllParts HasNumberFirst)
    (h : (evaluateAnyCall e.sorted).changed = false) : evaluateAnyCall e = .same e := by
  refine Step.eq_same (evaluateAnyCall_truthful e) ?_
  unfold evaluateAnyCall
  split
  · rename_i f arg
    rw [sorted_call] at h
    replace h : (evaluateUnaryCall f arg.sorted).changed = false := h
    rwa [evaluateUnaryCall_changed, isNegative_sorted ((allParts_call.mp first).2 arg (by simp)),
      special?_isSome_sorted, ← evaluateUnaryCall_changed] at h
  · rename_i base arg
    rw [sorted_call] at h
    replace h : (evaluateLogarithm base.sorted arg.sorted).changed = false := h
    unfold evaluateLogarithm at h ⊢
    rw [isOne_sorted] at h
    split at h
    · cases h
    · rename_i different
      rw [if_neg fun same => different (congrArg sorted same)]
      split at h
      · cases h
      · rename_i notOne
        rw [if_neg notOne]
        rfl
  · rfl

theorem normalizeCall_of_sorted (first : e.AllParts HasNumberFirst) (flat : e.AllParts IsFlat)
    (h : (normalizeCall e.sorted).changed = false) : normalizeCall e = .same e := by
  unfold normalizeCall
  split
  · rename_i n d
    replace h : (raiseReciprocal n.sorted d.sorted).changed = false := h
    have none : splitAtReciprocal d.factors = none := by
      rw [← Option.not_isSome_iff_eq_none, splitAtReciprocal_isSome,
        ← any_arranged .multiply reciprocalCall?_isSome_sorted, ← factors_sorted,
        ← splitAtReciprocal_isSome, Option.not_isSome_iff_eq_none]
      unfold raiseReciprocal at h
      split at h
      · assumption
      · cases h
    rw [raiseReciprocal, none, product_factors (flat.operands d (by simp)).here]
    rfl
  · rename_i other
    refine evaluateAnyCall_of_sorted first ?_
    unfold normalizeCall at h
    split at h
    · rename_i n d same
      have sides := e.sides?_sorted .divide rfl
      rw [same] at sides
      obtain ⟨p, found, -⟩ := Option.map_eq_some_iff.mp sides.symm
      exact absurd (eq_node_of_sides? found) (other _ _)
    · exact h

/-! ## Identities and absorbing operands -/

theorem nodup_of_arranged {op : Operator} {xs : List Expr}
    (h : (op.arranged (xs.map sorted)).Nodup) : xs.Nodup :=
  .of_map sorted ((arranged_perm op _).nodup_iff.mp h)

theorem length_dropRepeats_iff (xs : List Expr) :
    (dropRepeats xs).length = xs.length ↔ xs.Nodup := by
  induction xs with
  | nil => simp [dropRepeats]
  | cons x xs ih =>
    have shorter := List.length_filter_le (· != x) (dropRepeats xs)
    have bound := (dropRepeats_sublist xs).length_le
    rw [dropRepeats, List.length_cons, List.length_cons, Nat.add_right_cancel_iff, List.nodup_cons,
      ← ih]
    constructor
    · intro all
      have whole : (dropRepeats xs).length = xs.length := by omega
      have same := (dropRepeats_sublist xs).eq_of_length whole
      rw [same] at all
      refine ⟨fun member => ?_, whole⟩
      have kept := List.filter_eq_self.mp (List.filter_sublist.eq_of_length all) x member
      simp at kept
    · rintro ⟨new, whole⟩
      rw [(dropRepeats_sublist xs).eq_of_length whole, List.filter_eq_self.mpr]
      exact fun y member => bne_iff_ne.mpr fun same => new (same ▸ member)

theorem length_dropPairs_iff (kept xs : List Expr) :
    (dropPairs kept xs).length = kept.length + xs.length ↔ xs.Nodup ∧ ∀ x ∈ xs, x ∉ kept := by
  induction xs generalizing kept with
  | nil => simp [dropPairs]
  | cons x xs ih =>
    rw [dropPairs, List.length_cons, List.nodup_cons, List.forall_mem_cons]
    split
    · rename_i member
      have shorter := List.length_erase_of_mem member
      have bound := (dropPairs_of_length (kept.erase x) xs).1
      exact ⟨fun all => by omega, fun h => absurd member h.2.1⟩
    · rename_i new
      have length : kept.length + (xs.length + 1) = (kept ++ [x]).length + xs.length := by
        rw [List.length_append, List.length_singleton]
        omega
      rw [length, ih]
      simp only [List.mem_append, List.mem_singleton, not_or]
      constructor
      · rintro ⟨nodup, others⟩
        exact ⟨⟨fun member => (others x member).2 rfl, nodup⟩, new,
          fun y member => (others y member).1⟩
      · rintro ⟨⟨first, nodup⟩, -, others⟩
        exact ⟨nodup, fun y member => ⟨others y member, fun same => first (same ▸ member)⟩⟩

theorem trimDifference_changed (a b : Expr) :
    (trimDifference a b).changed = (b.isZero || decide (a = b) && !a.isNaN) := by
  unfold trimDifference
  cases b.isZero <;> cases a.isNaN <;> by_cases same : a = b <;> simp [same] <;> rfl

theorem trimQuotient_changed (a b : Expr) :
    (trimQuotient a b).changed =
      (b.isZero || !a.isNaN && (b.isOne || a.isZero && !b.isNaN || decide (a = b))) := by
  unfold trimQuotient
  cases b.isZero <;> cases a.isNaN <;> cases b.isOne <;> cases a.isZero <;> cases b.isNaN <;>
    by_cases same : a = b <;> simp [same] <;> rfl

theorem trimPower_changed (a b : Expr) :
    (trimPower a b).changed = (b.isOne || b.isZero && !a.isNaN || a.isOne) := by
  unfold trimPower
  cases b.isOne <;> cases b.isZero <;> cases a.isNaN <;> cases a.isOne <;> rfl

theorem trimShift_changed (op : Operator) (a b : Expr) :
    (trimShift op a b).changed = (b.isZero || a.isZero) := by
  unfold trimShift
  cases b.isZero <;> cases a.isZero <;> rfl

theorem length_filter_arranged {op : Operator} {p : Expr → Bool}
    (keeps : ∀ x : Expr, p x.sorted = p x) (xs : List Expr) :
    ((op.arranged (xs.map sorted)).filter p).length = (xs.filter p).length := by
  rw [(filter_arranged_perm op keeps xs).length_eq, List.length_map]

/-- What is left of operands by dropping equal ones and then zeros is all of them only if they are
different and not zero. -/
theorem rebuilt_of_sorted {drop : List Expr → List Expr}
    (bound : ∀ xs, (drop xs).length ≤ xs.length)
    (all_iff : ∀ xs, (drop xs).length = xs.length ↔ xs.Nodup)
    (whole : ∀ xs, (drop xs).length = xs.length → drop xs = xs) {build : List Expr → Expr}
    {op : Operator} {xs : List Expr}
    (h : (rebuilt build (op.arranged (xs.map sorted))
      ((drop (op.arranged (xs.map sorted))).filter fun x => !x.isZero)).changed = false) :
    (rebuilt build xs ((drop xs).filter fun x => !x.isZero)).changed = false := by
  simp only [rebuilt, bne_eq_false_iff_eq] at h ⊢
  have shorter := List.length_filter_le (fun x : Expr => !x.isZero)
    (drop (op.arranged (xs.map sorted)))
  have ordered : (drop (op.arranged (xs.map sorted))).length =
      (op.arranged (xs.map sorted)).length := le_antisymm (bound _) (h.symm.le.trans shorter)
  have all := (all_iff xs).mpr (nodup_of_arranged ((all_iff _).mp ordered))
  rw [whole _ ordered, length_filter_arranged fun x => by rw [isZero_sorted],
    Operator.length_arranged, List.length_map] at h
  rwa [whole _ all]

theorem trimNode_of_sorted (flat : e.IsFlat) (h : (trimNode e.sorted).changed = false) :
    trimNode e = .same e := by
  have two (op : Operator) (xs : List Expr) (same : e = .node op xs)
      (associative : op.isAssociative = true) : 2 ≤ xs.length := by
    subst same
    exact (flat associative).1
  refine Step.eq_same (trimNode_truthful two) ?_
  unfold trimNode
  split
  · rename_i xs
    rw [sorted_node] at h
    replace h : (rebuilt sum (Operator.add.arranged (xs.map sorted)) _).changed = false := h
    rwa [rebuilt, length_filter_arranged fun x => by rw [isZero_sorted], Operator.length_arranged,
      List.length_map] at h
  · rename_i xs
    rw [sorted_node] at h
    replace h : (trimProduct (Operator.multiply.arranged (xs.map sorted))).changed = false := h
    unfold trimProduct at h ⊢
    rw [any_arranged _ isNaN_sorted, any_arranged _ isZero_sorted] at h
    split at h
    · cases h
    · rename_i ordinary
      rw [if_neg ordinary]
      rwa [rebuilt, length_filter_arranged fun x => by rw [isOne_sorted], Operator.length_arranged,
        List.length_map] at h
  · rename_i xs
    rw [sorted_node] at h
    exact rebuilt_of_sorted (fun xs => (dropRepeats_sublist xs).length_le) length_dropRepeats_iff
      (fun xs => (dropRepeats_sublist xs).eq_of_length) h
  · rename_i xs
    rw [sorted_node] at h
    replace h : (trimBitAnd (Operator.bitAnd.arranged (xs.map sorted))).changed = false := h
    unfold trimBitAnd at h ⊢
    rw [any_arranged _ isZero_sorted] at h
    split at h
    · cases h
    · rename_i nonzero
      rw [if_neg nonzero]
      simp only [Bool.or_eq_false_iff, bne_eq_false_iff_eq] at h ⊢
      have all := (length_dropRepeats_iff xs).mpr (nodup_of_arranged
        ((length_dropRepeats_iff _).mp h.1))
      refine ⟨all, ?_⟩
      have long := two _ _ rfl rfl
      rw [all]
      exact beq_false_of_ne (by omega)
  · rename_i xs
    rw [sorted_node] at h
    refine rebuilt_of_sorted (fun xs => ?_) (fun xs => ?_) (fun xs => ?_) h
    · simpa using (dropPairs_of_length [] xs).1
    · simpa using length_dropPairs_iff [] xs
    · simpa using (dropPairs_of_length [] xs).2
  · rename_i a b
    replace h : (trimDifference a.sorted b.sorted).changed = false := h
    rw [trimDifference_changed, isZero_sorted, isNaN_sorted] at h
    rw [trimDifference_changed]
    simp only [Bool.or_eq_false_iff, Bool.and_eq_false_iff, decide_eq_false_iff_not] at h ⊢
    exact ⟨h.1, h.2.imp_left fun different same => different (congrArg sorted same)⟩
  · rename_i a b
    replace h : (trimQuotient a.sorted b.sorted).changed = false := h
    rw [trimQuotient_changed, isZero_sorted, isZero_sorted, isNaN_sorted, isNaN_sorted,
      isOne_sorted] at h
    rw [trimQuotient_changed]
    simp only [Bool.or_eq_false_iff, Bool.and_eq_false_iff, decide_eq_false_iff_not] at h ⊢
    exact ⟨h.1, h.2.imp_right (And.imp_right fun different same =>
      different (congrArg sorted same))⟩
  · rename_i a b
    replace h : (trimPower a.sorted b.sorted).changed = false := h
    rwa [trimPower_changed, isOne_sorted, isOne_sorted, isZero_sorted, isNaN_sorted,
      ← trimPower_changed] at h
  · rename_i a b
    replace h : (trimShift .leftShift a.sorted b.sorted).changed = false := h
    rwa [trimShift_changed, isZero_sorted, isZero_sorted, ← trimShift_changed] at h
  · rename_i a b
    replace h : (trimShift .rightShift a.sorted b.sorted).changed = false := h
    rwa [trimShift_changed, isZero_sorted, isZero_sorted, ← trimShift_changed] at h
  · rfl

end Rules

end SymbolicAlgebra
