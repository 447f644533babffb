import SymbolicAlgebra.Proofs.IdleRules
import SymbolicAlgebra.Proofs.LikeTerms

/-! Terms and factors that have nothing to be gathered, whatever order they stand in. -/
namespace SymbolicAlgebra

open SymbolicAlgebra.Expr

/-! ## Groups by a key -/

/-- Groups that are told apart by a key: as many as elements if these have different keys. -/
theorem length_foldl_keys {α γ κ : Type*} {insert : List γ → α → List γ} {key : α → κ}
    {groupKey : γ → κ}
    (step : ∀ groups x,
      key x ∈ groups.map groupKey ∧ (insert groups x).map groupKey = groups.map groupKey ∨
        key x ∉ groups.map groupKey ∧
          (insert groups x).map groupKey = groups.map groupKey ++ [key x])
    (xs : List α) (groups : List γ) :
    (xs.foldl insert groups).length ≤ groups.length + xs.length ∧
      ((xs.foldl insert groups).length = groups.length + xs.length ↔
        (xs.map key).Nodup ∧ ∀ x ∈ xs, key x ∉ groups.map groupKey) := by
  induction xs generalizing groups with
  | nil => simp
  | cons x xs ih =>
    obtain ⟨bound, all⟩ := ih (insert groups x)
    rw [List.foldl_cons, List.length_cons, List.map_cons, List.nodup_cons, List.forall_mem_cons]
    obtain ⟨known, keys⟩ | ⟨new, keys⟩ := step groups x
    · have length := congrArg List.length keys
      rw [List.length_map, List.length_map] at length
      exact ⟨by omega, fun long => by omega, fun h => absurd known h.2.1⟩
    · have length := congrArg List.length keys
      rw [List.length_append, List.length_map, List.length_map, List.length_singleton] at length
      have sum : groups.length + (xs.length + 1) = (insert groups x).length + xs.length := by omega
      rw [keys] at all
      rw [sum, all]
      simp only [List.mem_append, List.mem_singleton, not_or]
      refine ⟨bound, ?_, ?_⟩
      · rintro ⟨nodup, others⟩
        refine ⟨⟨fun member => ?_, nodup⟩, new, fun y member => (others y member).1⟩
        obtain ⟨y, inside, same⟩ := List.mem_map.mp member
        exact (others y inside).2 same
      · rintro ⟨⟨first, nodup⟩, -, others⟩
        exact ⟨nodup, fun y member =>
          ⟨others y member, fun same => first (List.mem_map.mpr ⟨y, member, same⟩)⟩⟩

namespace TermGroup

theorem rests_insert (term : Expr) (split : Numeral × Expr) (groups : List TermGroup) :
    split.2 ∈ groups.map rest ∧ (insert term split groups).map rest = groups.map rest ∨
      split.2 ∉ groups.map rest ∧
        (insert term split groups).map rest = groups.map rest ++ [split.2] := by
  induction groups with
  | nil => exact .inr ⟨List.not_mem_nil, rfl⟩
  | cons g groups ih =>
    rw [insert, List.map_cons, List.mem_cons]
    split
    · rename_i same
      exact .inl ⟨.inl same.symm, rfl⟩
    · rename_i other
      rw [List.map_cons]
      obtain ⟨known, keys⟩ | ⟨new, keys⟩ := ih
      · exact .inl ⟨.inr known, by rw [keys]⟩
      · exact .inr ⟨not_or.mpr ⟨Ne.symm other, new⟩, by rw [keys, List.cons_append]⟩

/-- The group of a term that is like no other. -/
def own (term : Expr) : TermGroup := ⟨term.asMultiple.2, term.asMultiple.1, some term⟩

theorem length_gather_iff (terms : List Expr) :
    (gather terms).length = terms.length ↔ (terms.map fun t => t.asMultiple.2).Nodup := by
  rw [gather]
  simpa using (length_foldl_keys (fun groups term => rests_insert term term.asMultiple groups)
    terms []).2

theorem gather_of_nodup {terms : List Expr} (h : (terms.map fun t => t.asMultiple.2).Nodup) :
    gather terms = terms.map own := by
  have length := (length_gather_iff terms).mpr h
  have whole := (map_foldl_of_length (fun groups term => insert_cases term groups) terms []).2
  rw [gather] at length ⊢
  rw [whole (by simpa using length)]
  rfl

end TermGroup

namespace FactorGroup

theorem bases_insert (factor : Expr) (split : Expr × Expr) (groups : List FactorGroup) :
    split.1 ∈ groups.map base ∧ (insert factor split groups).map base = groups.map base ∨
      split.1 ∉ groups.map base ∧
        (insert factor split groups).map base = groups.map base ++ [split.1] := by
  induction groups with
  | nil => exact .inr ⟨List.not_mem_nil, rfl⟩
  | cons g groups ih =>
    rw [insert, List.map_cons, List.mem_cons]
    split
    · rename_i same
      exact .inl ⟨.inl same.symm, rfl⟩
    · rename_i other
      rw [List.map_cons]
      obtain ⟨known, keys⟩ | ⟨new, keys⟩ := ih
      · exact .inl ⟨.inr known, by rw [keys]⟩
      · exact .inr ⟨not_or.mpr ⟨Ne.symm other, new⟩, by rw [keys, List.cons_append]⟩

theorem length_gather_iff (factors : List Expr) :
    (gather factors).length = factors.length ↔ (factors.map fun f => f.asPower.1).Nodup := by
  rw [gather]
  simpa using (length_foldl_keys (fun groups factor => bases_insert factor factor.asPower groups)
    factors []).2

end FactorGroup

/-! ## Pairs of positions -/

/-- No pair of different positions gives a result exactly if none does pairwise, in either order. -/
theorem firstPair?_eq_none_iff {α β : Type*} {xs : List α} {f : Nat → Nat → Option β}
    {p : α → α → Prop}
    (each : ∀ i j (hi : i < xs.length) (hj : j < xs.length), f i j = none ↔ p xs[i] xs[j]) :
    firstPair? xs.length f = none ↔ xs.Pairwise fun a b => p a b ∧ p b a := by
  rw [firstPair?, List.pairwise_iff_getElem]
  simp only [List.findSome?_eq_none_iff, List.mem_range]
  constructor
  · intro h i j hi hj less
    have first := h i hi j hj
    have second := h j hj i hi
    rw [if_neg (Nat.ne_of_lt less)] at first
    rw [if_neg (Nat.ne_of_gt less)] at second
    exact ⟨(each i j hi hj).mp first, (each j i hj hi).mp second⟩
  · intro h i hi j hj
    obtain less | same | greater := Nat.lt_trichotomy i j
    · rw [if_neg (Nat.ne_of_lt less)]
      exact (each i j hi hj).mpr (h i j hi hj less).1
    · exact if_pos same
    · rw [if_neg (Nat.ne_of_gt greater)]
      exact (each i j hi hj).mpr (h j i hj hi greater).2

theorem dropComplements?_eq_none_iff (groups : List TermGroup) (constant : Option Numeral) :
    dropComplements? groups constant = none ↔
      groups.Pairwise fun a b => a.complement? b = none ∧ b.complement? a = none := by
  rw [dropComplements?]
  refine firstPair?_eq_none_iff fun i j hi hj => ?_
  rw [List.getElem?_eq_getElem hi, List.getElem?_eq_getElem hj]
  exact Option.map_eq_none_iff

theorem reduceCalls?_eq_none_iff (factors : List Expr) :
    reduceCalls? factors = none ↔
      factors.Pairwise fun a b => callProduct? a b = none ∧ callProduct? b a = none := by
  rw [reduceCalls?]
  refine firstPair?_eq_none_iff fun i j hi hj => ?_
  rw [List.getElem?_eq_getElem hi, List.getElem?_eq_getElem hj]
  exact Option.map_eq_none_iff

theorem convertSquares?_eq_none_iff (n : Numeral) (groups : List TermGroup) :
    convertSquares? n groups = none ↔
      ∀ g ∈ groups, ∀ p, g.rest.callOfSquare? = some p →
        convertSquare? p.1 g.coefficient n = none := by
  induction groups with
  | nil => simp [convertSquares?]
  | cons g groups ih =>
    rw [convertSquares?, List.forall_mem_cons, ← ih]
    cases g.rest.callOfSquare? with
    | none => simp
    | some p =>
      obtain ⟨f, u⟩ := p
      cases found : convertSquare? f g.coefficient n <;> simp [found]

/-- A relation that holds of all pairs of ordered terms, in both orders, holds of the terms. -/
theorem pairwise_of_sorted {p q : Expr → Expr → Prop} {xs ys : List Expr}
    (perm : xs.Perm (ys.map sorted))
    (imp : ∀ a ∈ ys, ∀ b ∈ ys, p a.sorted b.sorted ∧ p b.sorted a.sorted → q a b ∧ q b a)
    (h : xs.Pairwise fun a b => p a b ∧ p b a) : ys.Pairwise fun a b => q a b ∧ q b a := by
  have each := (perm.pairwise_iff fun h => h.symm).mp h
  rw [List.pairwise_map] at each
  exact each.imp_of_mem fun ha hb => imp _ ha _ hb

theorem useSquareIdentity?_eq_none_iff (groups : List TermGroup) (constant : Option Numeral) :
    useSquareIdentity? groups constant = none ↔
      dropComplements? groups constant = none ∧
        ∀ n, constant = some n → n.isExact = true → convertSquares? n groups = none := by
  unfold useSquareIdentity?
  cases dropComplements? groups constant with
  | some result => simp
  | none =>
    cases constant with
    | none => simp
    | some n => cases exact : n.isExact <;> simp [exact]

/-! ## Sums -/

/-- The addends that are no constants. -/
def addedTerms (xs : List Expr) : List Expr := xs.filter fun x => !x.isAddedConstant

/-- One constant at most, unlike terms, and no squares that add up to a constant or stand beside
one that they could be converted with. -/
structure GatheredAddends (xs : List Expr) : Prop where
  few : ¬1 < (xs.filter isAddedConstant).length
  unlike : ((addedTerms xs).map fun t => t.asMultiple.2).Nodup
  squares : xs.any isComplex = false →
    useSquareIdentity? ((addedTerms xs).map TermGroup.own)
      ((addedConstant (xs.filter isAddedConstant)).bind numeral?) = none

theorem gatheredAddends_of_unchanged {folded : Bool} {xs : List Expr}
    (h : (collectAddends folded xs).changed = false) : GatheredAddends xs := by
  revert h
  rw [collectAddends]
  simp only [List.partition_eq_filter_filter]
  split
  · intro unchanged
    cases unchanged
  · split
    · intro unchanged
      cases unchanged
    · rename_i none
      intro unchanged
      simp only [Bool.or_eq_false_iff, bne_eq_false_iff_eq, decide_eq_false_iff_not] at unchanged
      obtain ⟨⟨-, few, -⟩, alone⟩ := unchanged
      have unlike := (TermGroup.length_gather_iff _).mp alone
      refine ⟨few, unlike, fun real => ?_⟩
      rw [TermGroup.gather_of_nodup unlike] at none
      rw [real] at none
      exact none

theorem collectAddends_of_gathered {folded : Bool} {xs : List Expr} (h : GatheredAddends xs) :
    (collectAddends folded xs).expr =
      .sum (addedTerms xs ++ (addedConstant (xs.filter isAddedConstant)).toList) := by
  have nonzero : (addedTerms xs).filter (fun e => !e.isZero) = addedTerms xs :=
    List.filter_eq_self.mpr fun x member => by
      have symbolic := List.of_mem_filter member
      cases zero : x.isZero with
      | false => rfl
      | true => simp [isAddedConstant_of_isZero zero] at symbolic
  have terms : ((addedTerms xs).map TermGroup.own).map TermGroup.toExpr = addedTerms xs := by
    rw [List.map_map]
    exact List.map_id _
  have others : xs.filter (not ∘ isAddedConstant) = addedTerms xs := rfl
  rw [collectAddends]
  simp only [List.partition_eq_filter_filter]
  rw [if_neg fun many => h.few many.1, others, TermGroup.gather_of_nodup h.unlike]
  cases complex : xs.any isComplex with
  | true => rw [if_pos rfl]; dsimp only; rw [terms, nonzero]
  | false => rw [if_neg (by decide), h.squares complex]; dsimp only; rw [terms, nonzero]

/-- What a gathered term is read as does not depend on the order of the operands in it. -/
structure IsReadable (e : Expr) : Prop where
  numbers : e.AllParts HasNumberFirst
  bars : e.AllParts HasBarOutside
  flat : e.AllParts IsFlat

theorem own_sorted {e : Expr} (h : IsReadable e) :
    (TermGroup.own e.sorted).coefficient = (TermGroup.own e).coefficient ∧
      (TermGroup.own e.sorted).rest = (TermGroup.own e).rest.sorted := by
  rw [TermGroup.own, TermGroup.own, asMultiple_sorted h.numbers h.bars h.flat]
  exact ⟨rfl, rfl⟩

theorem complement?_of_sorted {a b : Expr} (ha : IsReadable a) (hb : IsReadable b)
    (h : (TermGroup.own a.sorted).complement? (TermGroup.own b.sorted) = none) :
    (TermGroup.own a).complement? (TermGroup.own b) = none := by
  obtain ⟨coefficientA, restA⟩ := own_sorted ha
  obtain ⟨coefficientB, restB⟩ := own_sorted hb
  unfold TermGroup.complement? at h ⊢
  rw [coefficientA, coefficientB, restA, restB, callOfSquare?_sorted, callOfSquare?_sorted] at h
  split
  · rename_i exact
    rw [if_pos exact] at h
    split
    · rename_i f u g v first second
      rw [first, second] at h
      dsimp only [Option.map_some] at h
      split
      · rename_i s sign
        rw [sign] at h
        dsimp only at h
        split at h
        · cases h
        · rename_i differ
          exact if_neg fun same => differ ⟨congrArg sorted same.1, same.2⟩
      · rfl
    · rfl
  · rfl

/-- A constant has no operands that could stand in another order. -/
theorem sorted_of_isAddedConstant {e : Expr} (h : e.isAddedConstant = true) : e.sorted = e := by
  cases e with
  | node op xs =>
    have value : (node op xs).rational?.isSome = true := by
      simpa [isAddedConstant, complex?, numeral?] using h
    obtain ⟨r, found⟩ := Option.isSome_iff_exists.mp value
    rw [rational?_node, Option.bind_eq_some_iff] at found
    obtain ⟨⟨n, d⟩, sides, numbers⟩ := found
    rw [eq_node_of_sides? sides]
    dsimp only at numbers ⊢
    split at numbers
    · rename_i a b hn hd
      cases n <;> cases hn
      cases d <;> cases hd
      rfl
    · cases numbers
  | call f xs => cases h
  | _ => rfl

theorem isAddedConstant_sorted (e : Expr) : e.sorted.isAddedConstant = e.isAddedConstant := by
  rw [isAddedConstant, complex?_sorted, isAddedConstant]

theorem filter_isAddedConstant_perm {xs ys : List Expr} (perm : xs.Perm (ys.map sorted)) :
    (xs.filter isAddedConstant).Perm (ys.filter isAddedConstant) := by
  have same : (ys.filter isAddedConstant).map sorted = ys.filter isAddedConstant :=
    (List.map_congr_left fun y member =>
      sorted_of_isAddedConstant (List.mem_filter.mp member).2).trans (List.map_id _)
  rw [← same, ← filter_map_sorted isAddedConstant_sorted]
  exact perm.filter _

theorem addedTerms_perm {xs ys : List Expr} (perm : xs.Perm (ys.map sorted)) :
    (addedTerms xs).Perm ((addedTerms ys).map sorted) := by
  rw [addedTerms, addedTerms, ← filter_map_sorted fun y => by rw [isAddedConstant_sorted]]
  exact perm.filter _

theorem eq_of_perm_of_few {cs ds : List Expr} (perm : cs.Perm ds) (few : ¬1 < cs.length) :
    cs = ds := by
  match cs, few with
  | [], _ => exact (List.nil_perm.mp perm).symm
  | [c], _ => exact (List.singleton_perm.mp perm)
  | _ :: _ :: _, few => exact absurd (by simp) few

theorem GatheredAddends.of_perm {xs ys : List Expr} (h : GatheredAddends xs)
    (perm : xs.Perm (ys.map sorted)) (readable : ∀ y ∈ ys, IsReadable y) : GatheredAddends ys := by
  have constants := eq_of_perm_of_few (filter_isAddedConstant_perm perm) h.few
  have terms := addedTerms_perm perm
  have read (y : Expr) (member : y ∈ addedTerms ys) : IsReadable y :=
    readable y (List.mem_of_mem_filter member)
  refine ⟨constants ▸ h.few, ?_, fun real => ?_⟩
  · have nodup := (terms.map fun t => t.asMultiple.2).nodup_iff.mp h.unlike
    rw [List.map_map] at nodup
    have rests : (addedTerms ys).map ((fun t : Expr => t.asMultiple.2) ∘ sorted) =
        ((addedTerms ys).map fun t => t.asMultiple.2).map sorted := by
      rw [List.map_map]
      exact List.map_congr_left fun y member => (own_sorted (read y member)).2
    rw [rests] at nodup
    exact .of_map sorted nodup
  · have none := h.squares (by rw [perm.any_eq, List.any_map, ← real]; simp [Function.comp_def])
    rw [useSquareIdentity?_eq_none_iff, dropComplements?_eq_none_iff, List.pairwise_map] at none ⊢
    rw [constants] at none
    refine ⟨pairwise_of_sorted terms (fun a ha b hb pair => ?_) none.1, fun n found exact => ?_⟩
    · exact ⟨complement?_of_sorted (read a ha) (read b hb) pair.1,
        complement?_of_sorted (read b hb) (read a ha) pair.2⟩
    · have each := none.2 n found exact
      rw [convertSquares?_eq_none_iff, List.forall_mem_map] at each ⊢
      intro y member p square
      obtain ⟨coefficient, rest⟩ := own_sorted (read y member)
      have here := each y.sorted (terms.mem_iff.mpr (List.mem_map_of_mem member))
        (p.1, p.2.sorted)
      rw [rest, coefficient, callOfSquare?_sorted, square] at here
      exact here rfl

theorem toList_addedConstant {cs : List Expr} (few : ¬1 < cs.length) :
    (addedConstant cs).toList = cs := by
  match cs, few with
  | [], _ => rfl
  | [c], _ => rfl
  | _ :: _ :: _, few => exact absurd (by simp) few

theorem addedTerms_append_perm (xs : List Expr) :
    (addedTerms xs ++ xs.filter isAddedConstant).Perm xs :=
  List.perm_append_comm.trans (List.filter_append_perm isAddedConstant xs)

/-- Where nothing is to be gathered the operands only change their places. -/
theorem collectAddends_perm {folded : Bool} {xs : List Expr} (h : GatheredAddends xs)
    (two : 2 ≤ xs.length) :
    ∃ zs, zs.Perm xs ∧ (collectAddends folded xs).expr = .node .add zs := by
  have perm := addedTerms_append_perm xs
  refine ⟨_, perm, ?_⟩
  rw [collectAddends_of_gathered h, toList_addedConstant h.few,
    sum_eq_node (two.trans perm.length_eq.ge)]

theorem addComplexConstants_of_only {xs : List Expr} {z : ComplexNumeral}
    (only : xs.filter isAddedConstant = [.complex z]) :
    addComplexConstants xs =
      addedTerms xs ++ [ofComplex ((ComplexNumeral.ofReal .zero).add z)] := by
  have values : xs.filterMap complex? = [z] := by
    have constants : (xs.filter isAddedConstant).filterMap complex? = xs.filterMap complex? := by
      rw [List.filterMap_filter]
      refine List.filterMap_congr fun x _ => ?_
      rw [isAddedConstant]
      cases x.complex? <;> rfl
    rw [← constants, only]
    rfl
  have others : xs.filter (fun x => x.complex?.isNone) = addedTerms xs :=
    List.filter_congr fun x _ => by simp [isAddedConstant]
  rw [addComplexConstants, values, others]
  rfl

theorem sorted_of_mem_arranged {op : Operator} {ys : List Expr} {x : Expr}
    (member : x ∈ op.arranged (ys.map sorted)) : x.sorted = x := by
  obtain ⟨y, -, rfl⟩ := List.mem_map.mp ((arranged_perm op _).mem_iff.mp member)
  exact sorted_sorted y

theorem map_sorted_eq_self {xs : List Expr} (each : ∀ x ∈ xs, x.sorted = x) :
    xs.map sorted = xs :=
  (List.map_congr_left each).trans (List.map_id _)

/-- Operands beside others that stay come out as they were if the node does. -/
theorem front_of_idle {op : Operator} {xs zs front back others : List Expr}
    (each : ∀ x ∈ xs, x.sorted = x) (before : xs.Perm (front ++ others))
    (after : zs.Perm (back ++ others)) (idle : (node op zs).sorted = .node op xs) :
    (back.map sorted).Perm front := by
  rw [sorted_node, node.injEq] at idle
  have moved := (arranged_perm op (zs.map sorted)).symm
  have same : others.map sorted = others :=
    map_sorted_eq_self fun x member => each x (before.mem_iff.mpr (List.mem_append_right _ member))
  rw [idle.2] at moved
  have first := (after.map sorted).symm.trans (moved.trans before)
  rw [List.map_append, same] at first
  exact (List.perm_append_right_iff _).mp first

theorem eq_complex_of_sorted {e : Expr} {z : ComplexNumeral} (h : e.sorted = .complex z) :
    e = .complex z := by
  cases e with
  | node op xs => simp at h
  | call f xs => simp at h
  | _ => exact h

/-- The only constant of a sum that is left as it is can be no complex one that comes out another.
-/
theorem complex_of_idle {xs : List Expr} {z : ComplexNumeral} {c : Expr}
    (each : ∀ x ∈ xs, x.sorted = x) (two : 2 ≤ xs.length)
    (only : xs.filter isAddedConstant = [.complex z])
    (idle : (sum (addedTerms xs ++ [c])).sorted = .node .add xs) : c = .complex z := by
  have perm := addedTerms_append_perm xs
  rw [only] at perm
  have length := perm.length_eq
  rw [List.length_append] at length
  rw [sum_eq_node (by rw [List.length_append]; exact two.trans length.ge)] at idle
  have same := front_of_idle each (perm.symm.trans List.perm_append_comm) List.perm_append_comm idle
  rw [List.map_singleton, List.singleton_perm_singleton] at same
  exact eq_complex_of_sorted same

/-- The one complex constant of a sum goes last, whatever stands where. -/
theorem collectComplexSum_of_perm {xs ys : List Expr} {z : ComplexNumeral} {folded : Bool}
    (perm : xs.Perm (ys.map sorted)) (readable : ∀ y ∈ ys, IsReadable y) (two : 2 ≤ ys.length)
    (only : xs.filter isAddedConstant = [.complex z])
    (total : ofComplex ((ComplexNumeral.ofReal .zero).add z) = .complex z)
    (gathered : GatheredAddends (addComplexConstants xs)) :
    ∃ zs, zs.Perm ys ∧
      (collectAddends folded (addComplexConstants ys)).expr = .node .add zs := by
  have same := eq_of_perm_of_few (filter_isAddedConstant_perm perm) (by simp [only])
  rw [only] at same
  rw [addComplexConstants_of_only only, total] at gathered
  rw [addComplexConstants_of_only same.symm, total]
  have whole : (addedTerms ys ++ [Expr.complex z]).Perm ys := by
    rw [same]
    exact addedTerms_append_perm ys
  have gathered' : GatheredAddends (addedTerms ys ++ [.complex z]) :=
    gathered.of_perm (by rw [List.map_append]; exact (addedTerms_perm perm).append_right _)
      fun y member => readable y (whole.mem_iff.mp member)
  obtain ⟨zs, moved, result⟩ := collectAddends_perm gathered' (two.trans whole.length_eq.ge)
  exact ⟨zs, moved.trans whole, result⟩

theorem collectSum_of_sorted {ys : List Expr} (readable : ∀ y ∈ ys, IsReadable y)
    (two : 2 ≤ ys.length) (h : Idle collectNode (node .add ys).sorted) :
    ∃ zs, zs.Perm ys ∧ (collectSum ys).expr = .node .add zs := by
  rw [sorted_node] at h
  obtain ⟨unchanged, same⟩ := h
  have perm := arranged_perm .add (ys.map sorted)
  have each (x : Expr) (member : x ∈ Operator.add.arranged (ys.map sorted)) : x.sorted = x :=
    sorted_of_mem_arranged member
  have complexes := any_arranged .add isComplex_sorted ys
  have undefined := any_arranged .add isNaN_sorted ys
  generalize Operator.add.arranged (ys.map sorted) = xs at *
  rw [collectNode, collectSum, undefined, complexes] at unchanged same
  rw [collectSum]
  split at unchanged
  · cases unchanged
  · rename_i defined
    rw [if_neg defined] at same ⊢
    split at unchanged
    · rename_i complex
      rw [if_pos complex] at same ⊢
      obtain ⟨unfolded, sum⟩ := collectAddends_unchanged unchanged
      have few : ¬1 < (xs.filter isAddedConstant).length := by simpa using unfolded
      obtain ⟨z, -, only⟩ := exists_only_complex (fun _ => rfl) (complexes.trans complex) few
      rw [sum, addComplexConstants_of_only only] at same
      have length : 2 ≤ xs.length := two.trans (by rw [perm.length_eq, List.length_map])
      exact collectComplexSum_of_perm perm readable two only (complex_of_idle each length only same)
        (gatheredAddends_of_unchanged unchanged)
    · rename_i real
      rw [if_neg real] at same ⊢
      exact collectAddends_perm ((gatheredAddends_of_unchanged unchanged).of_perm perm readable) two

/-! ## Products -/

/-- The factors that are no numerals. -/
def otherFactors (xs : List Expr) : List Expr := xs.filter fun x => !x.isNumber

/-- One numeral at most, neither undefined nor zero nor one, different bases, and no calls that
reduce with each other. -/
structure GatheredFactors (xs : List Expr) : Prop where
  defined : (numeralProduct (xs.filter isNumber)).isNaN = false
  nonzero : (numeralProduct (xs.filter isNumber)).isZero = false
  few : ¬1 < (xs.filter isNumber).length
  needed : (numeralProduct (xs.filter isNumber)).isOne = true → xs.filter isNumber = []
  unlike : ((otherFactors xs).map fun f => f.asPower.1).Nodup
  unreduced : (otherFactors xs).Pairwise fun a b =>
    callProduct? a b = none ∧ callProduct? b a = none

theorem gatheredFactors_of_unchanged {folded : Bool} {xs : List Expr}
    (h : (collectFactors folded xs).changed = false) : GatheredFactors xs := by
  revert h
  rw [collectFactors]
  simp only [List.partition_eq_filter_filter]
  split
  · intro unchanged
    cases unchanged
  · rename_i defined
    split
    · intro unchanged
      cases unchanged
    · rename_i nonzero
      have reduced (alone : (FactorGroup.gather (otherFactors xs)).length =
            (otherFactors xs).length)
          (unreduced : (reduceCalls? ((FactorGroup.gather (otherFactors xs)).filterMap
            FactorGroup.toExpr?)).isSome = false) :
          (otherFactors xs).Pairwise fun a b =>
            callProduct? a b = none ∧ callProduct? b a = none := by
        rwa [Option.isSome_eq_false_iff, Option.isNone_iff_eq_none,
          FactorGroup.toExpr?_gather_of_length alone, reduceCalls?_eq_none_iff] at unreduced
      split
      · intro unchanged
        simp only [Bool.or_eq_false_iff, bne_eq_false_iff_eq, decide_eq_false_iff_not,
          Bool.not_eq_false', List.isEmpty_iff] at unchanged
        obtain ⟨⟨⟨⟨-, few, -⟩, alone⟩, unreduced⟩, none⟩ := unchanged
        exact ⟨by simpa using defined, by simpa using nonzero, few, fun _ => none,
          (FactorGroup.length_gather_iff _).mp alone, reduced alone unreduced⟩
      · rename_i notOne
        intro unchanged
        simp only [Bool.or_eq_false_iff, bne_eq_false_iff_eq, decide_eq_false_iff_not] at unchanged
        obtain ⟨⟨⟨-, few, -⟩, alone⟩, unreduced⟩ := unchanged
        exact ⟨by simpa using defined, by simpa using nonzero, few, fun one => absurd one notOne,
          (FactorGroup.length_gather_iff _).mp alone, reduced alone unreduced⟩

theorem collectFactors_of_gathered {folded : Bool} {xs : List Expr} (h : GatheredFactors xs) :
    (collectFactors folded xs).expr =
      .product ((if (numeralProduct (xs.filter isNumber)).isOne then []
        else [.number (numeralProduct (xs.filter isNumber))]) ++ otherFactors xs) := by
  have alone := (FactorGroup.length_gather_iff _).mpr h.unlike
  have powers := FactorGroup.toExpr?_gather_of_length alone
  have others : xs.filter (not ∘ isNumber) = otherFactors xs := rfl
  rw [collectFactors]
  simp only [List.partition_eq_filter_filter]
  rw [others, powers, (reduceCalls?_eq_none_iff _).mpr h.unreduced]
  rw [h.defined, h.nonzero]
  cases (numeralProduct (xs.filter isNumber)).isOne <;> rfl

theorem filter_isNumber_of_perm {xs ys : List Expr} (perm : xs.Perm (ys.map sorted))
    (few : ¬1 < (xs.filter isNumber).length) : xs.filter isNumber = ys.filter isNumber := by
  have same : (ys.filter isNumber).map sorted = ys.filter isNumber :=
    map_sorted_eq_self fun y member => by
      have number := List.of_mem_filter member
      cases y <;> first | rfl | cases number
  refine eq_of_perm_of_few ?_ few
  rw [← same, ← filter_map_sorted isNumber_sorted]
  exact perm.filter _

theorem otherFactors_perm {xs ys : List Expr} (perm : xs.Perm (ys.map sorted)) :
    (otherFactors xs).Perm ((otherFactors ys).map sorted) := by
  rw [otherFactors, otherFactors, ← filter_map_sorted fun y => by rw [isNumber_sorted]]
  exact perm.filter _

theorem GatheredFactors.of_perm {xs ys : List Expr} (h : GatheredFactors xs)
    (perm : xs.Perm (ys.map sorted)) : GatheredFactors ys := by
  have numbers := filter_isNumber_of_perm perm h.few
  have others := otherFactors_perm perm
  refine ⟨numbers ▸ h.defined, numbers ▸ h.nonzero, numbers ▸ h.few, numbers ▸ h.needed, ?_, ?_⟩
  · have nodup := (others.map fun f => f.asPower.1).nodup_iff.mp h.unlike
    rw [List.map_map] at nodup
    have bases : (otherFactors ys).map ((fun f : Expr => f.asPower.1) ∘ sorted) =
        ((otherFactors ys).map fun f => f.asPower.1).map sorted := by
      rw [List.map_map]
      exact List.map_congr_left fun y _ => congrArg Prod.fst (asPower_sorted y)
    rw [bases] at nodup
    exact .of_map sorted nodup
  · exact pairwise_of_sorted others
      (fun a _ b _ pair => ⟨callProduct?_sorted pair.1, callProduct?_sorted pair.2⟩) h.unreduced

theorem otherFactors_append_perm (xs : List Expr) :
    (xs.filter isNumber ++ otherFactors xs).Perm xs :=
  List.filter_append_perm isNumber xs

theorem GatheredFactors.not_isOne {xs : List Expr} (h : GatheredFactors xs) {x : Numeral}
    (only : xs.filter isNumber = [.number x]) : (numeralProduct [.number x]).isOne = false := by
  cases one : (numeralProduct [.number x]).isOne with
  | false => rfl
  | true =>
    rw [← only] at one
    exact absurd ((h.needed one).symm.trans only) nofun

/-- The numeral of a product that is left as it is comes out as it was. -/
theorem numeralProduct_of_idle {xs : List Expr} {x : Numeral} (h : GatheredFactors xs)
    (each : ∀ x ∈ xs, x.sorted = x) (two : 2 ≤ xs.length) (only : xs.filter isNumber = [.number x])
    {folded : Bool} (idle : (collectFactors folded xs).expr.sorted = .node .multiply xs) :
    numeralProduct [.number x] = x := by
  have perm := otherFactors_append_perm xs
  rw [only] at perm
  have length : 2 ≤ ([Expr.number (numeralProduct [.number x])] ++ otherFactors xs).length :=
    two.trans perm.length_eq.ge
  rw [collectFactors_of_gathered h, only, h.not_isOne only, if_neg (by decide),
    product_eq_node length] at idle
  have same := front_of_idle each perm.symm (.refl _) idle
  simpa using same

/-- Where nothing is to be gathered the numeral goes first. -/
theorem collectFactors_perm (folded : Bool) {xs : List Expr} (h : GatheredFactors xs)
    (two : 2 ≤ xs.length)
    (kept : ∀ x, xs.filter isNumber = [.number x] → numeralProduct [.number x] = x) :
    ∃ zs, zs.Perm xs ∧ (node .multiply zs).HasNumberFirst ∧
      (collectFactors folded xs).expr = .node .multiply zs := by
  have perm := otherFactors_append_perm xs
  have others (x : Expr) (member : x ∈ otherFactors xs) : x.isNumber = false := by
    simpa using List.of_mem_filter member
  refine ⟨_, perm, ?_⟩
  rw [collectFactors_of_gathered h]
  match found : xs.filter isNumber with
  | [] =>
    rw [found] at perm
    exact ⟨fun x member => others x (List.mem_of_mem_tail member),
      product_eq_node (two.trans perm.length_eq.ge)⟩
  | [y] =>
    have number : y.isNumber = true := (List.mem_filter.mp (found ▸ List.mem_singleton_self y)).2
    cases y <;> cases number
    rename_i x
    rw [found] at perm
    rw [h.not_isOne found, if_neg (by decide), kept x found]
    exact ⟨others, product_eq_node (two.trans perm.length_eq.ge)⟩
  | _ :: _ :: _ =>
    have few := h.few
    rw [found] at few
    exact absurd (by simp) few

/-- The factors that are neither numerals nor complex numerals. -/
def variableFactors (xs : List Expr) : List Expr := xs.filter fun x => !x.isNumeralFactor

theorem isNumber_of_variable {xs : List Expr} {x : Expr} (member : x ∈ variableFactors xs) :
    x.isNumber = false := by
  have none := (List.mem_filter.mp member).2
  rw [isNumeralFactor, Bool.not_eq_true', Bool.or_eq_false_iff] at none
  exact none.1

theorem variableFactors_perm {xs ys : List Expr} (perm : xs.Perm (ys.map sorted)) :
    (variableFactors xs).Perm ((variableFactors ys).map sorted) := by
  rw [variableFactors, variableFactors, ← filter_map_sorted fun y => by rw [isNumeralFactor_sorted]]
  exact perm.filter _

theorem filter_isNumeralFactor_of_perm {xs ys : List Expr} {z : ComplexNumeral}
    (perm : xs.Perm (ys.map sorted)) (only : xs.filter isNumeralFactor = [.complex z]) :
    ys.filter isNumeralFactor = [.complex z] := by
  have moved := perm.filter isNumeralFactor
  rw [only, filter_map_sorted isNumeralFactor_sorted, List.singleton_perm] at moved
  obtain ⟨y, rest, same, here, none⟩ := List.map_eq_cons_iff.mp moved.symm
  rw [List.map_eq_nil_iff] at none
  rw [same, none, eq_complex_of_sorted here]

theorem multiplyComplexConstants_of_only {xs : List Expr} {z : ComplexNumeral}
    (only : xs.filter isNumeralFactor = [.complex z]) :
    multiplyComplexConstants xs =
      (if (ComplexNumeral.one.mul z).isReal then .number (ComplexNumeral.one.mul z).re
        else .complex (ComplexNumeral.one.mul z)) :: variableFactors xs := by
  rw [multiplyComplexConstants, only]
  rfl

/-- The only constant of a product that is left as it is can be no complex one that comes out
another. -/
theorem complex_factor_of_idle {xs : List Expr} {z : ComplexNumeral} {c : Expr} {folded : Bool}
    (each : ∀ x ∈ xs, x.sorted = x) (two : 2 ≤ xs.length)
    (only : xs.filter isNumeralFactor = [.complex z]) (constant : c.isNumeralFactor = true)
    (gathered : GatheredFactors (c :: variableFactors xs))
    (idle : (collectFactors folded (c :: variableFactors xs)).expr.sorted = .node .multiply xs) :
    c = .complex z := by
  have perm := List.filter_append_perm isNumeralFactor xs
  rw [only] at perm
  have others : otherFactors (variableFactors xs) = variableFactors xs :=
    List.filter_eq_self.mpr fun x member => by rw [isNumber_of_variable member]; rfl
  have none : (variableFactors xs).filter isNumber = [] :=
    List.filter_eq_nil_iff.mpr fun x member => by simp [isNumber_of_variable member]
  have length (c : Expr) : 2 ≤ ([c] ++ variableFactors xs).length := two.trans perm.length_eq.ge
  rw [collectFactors_of_gathered gathered] at idle
  cases c with
  | number x =>
    have numeral : (number x :: variableFactors xs).filter isNumber = [number x] := by
      rw [List.filter_cons_of_pos rfl, none]
    have rest : otherFactors (number x :: variableFactors xs) = variableFactors xs := by
      rw [otherFactors, List.filter_cons_of_neg (by simp [isNumber])]
      exact others
    rw [numeral, gathered.not_isOne numeral, if_neg (by decide), rest,
      product_eq_node (length _)] at idle
    simpa using front_of_idle each perm.symm (.refl _) idle
  | complex w =>
    have numeral : (complex w :: variableFactors xs).filter isNumber = [] := by
      rw [List.filter_cons_of_neg (by simp [isNumber]), none]
    have rest : otherFactors (complex w :: variableFactors xs) =
        [complex w] ++ variableFactors xs := by
      rw [otherFactors, List.filter_cons_of_pos rfl]
      exact congrArg _ others
    rw [numeral, rest] at idle
    replace idle : (product ([complex w] ++ variableFactors xs)).sorted = .node .multiply xs := idle
    rw [product_eq_node (length _)] at idle
    simpa using front_of_idle each perm.symm (.refl _) idle
  | _ => cases constant

/-- The one complex constant of a product goes first, whatever stands where. -/
theorem collectComplexProduct_of_perm {xs ys : List Expr} {z : ComplexNumeral} {folded : Bool}
    (perm : xs.Perm (ys.map sorted)) (two : 2 ≤ ys.length)
    (only : xs.filter isNumeralFactor = [.complex z])
    (gathered : GatheredFactors (.complex z :: variableFactors xs)) :
    ∃ zs, zs.Perm ys ∧ (node .multiply zs).HasNumberFirst ∧
      (collectFactors folded (.complex z :: variableFactors ys)).expr = .node .multiply zs := by
  have whole := List.filter_append_perm isNumeralFactor ys
  rw [filter_isNumeralFactor_of_perm perm only] at whole
  have gathered' : GatheredFactors (.complex z :: variableFactors ys) :=
    gathered.of_perm ((variableFactors_perm perm).cons _)
  have none : (complex z :: variableFactors ys).filter isNumber = [] :=
    List.filter_eq_nil_iff.mpr fun x member => by
      obtain rfl | inside := List.mem_cons.mp member
      · simp [isNumber]
      · simp [isNumber_of_variable inside]
  obtain ⟨zs, moved, first, result⟩ := collectFactors_perm folded gathered'
    (two.trans whole.length_eq.ge) fun x found =>
      absurd (none.symm.trans found) (List.cons_ne_nil _ _).symm
  exact ⟨zs, moved.trans whole, first, result⟩

theorem collectProduct_of_sorted {ys : List Expr} (two : 2 ≤ ys.length)
    (h : Idle collectNode (node .multiply ys).sorted) :
    ∃ zs, zs.Perm ys ∧ (node .multiply zs).HasNumberFirst ∧
      (collectProduct ys).expr = .node .multiply zs := by
  rw [sorted_node] at h
  obtain ⟨unchanged, same⟩ := h
  have perm := arranged_perm .multiply (ys.map sorted)
  have each (x : Expr) (member : x ∈ Operator.multiply.arranged (ys.map sorted)) : x.sorted = x :=
    sorted_of_mem_arranged member
  have complexes := any_arranged .multiply isComplex_sorted ys
  generalize Operator.multiply.arranged (ys.map sorted) = xs at *
  have length : 2 ≤ xs.length := two.trans (by rw [perm.length_eq, List.length_map])
  rw [collectNode, collectProduct, complexes] at unchanged same
  rw [collectProduct]
  split at unchanged
  · rename_i complex
    rw [if_pos complex] at same ⊢
    have few : ¬1 < (xs.filter isNumeralFactor).length := by
      simpa using (collectFactors_unchanged unchanged).1
    obtain ⟨z, -, only⟩ := exists_only_complex (fun _ => rfl) (complexes.trans complex) few
    have gathered := gatheredFactors_of_unchanged unchanged
    rw [multiplyComplexConstants_of_only only] at same gathered
    rw [multiplyComplexConstants_of_only (filter_isNumeralFactor_of_perm perm only)]
    have constant := complex_factor_of_idle each length only (by split <;> rfl) gathered same
    rw [constant] at gathered ⊢
    exact collectComplexProduct_of_perm perm two only gathered
  · rename_i real
    rw [if_neg real] at same ⊢
    have gathered := gatheredFactors_of_unchanged unchanged
    refine collectFactors_perm false (gathered.of_perm perm) two fun x found => ?_
    rw [← filter_isNumber_of_perm perm gathered.few] at found
    exact numeralProduct_of_idle gathered each length found same

/-! ## Powers, quotients and integers -/

theorem simplifyIntegerPower_changed (base : Expr) (n : Int) (exponent : Expr) :
    (simplifyIntegerPower base n exponent).changed =
      (decide (n < 0) || base.isNode .power ||
        decide (0 < n) && (base.isNode .multiply || (base.sides? .divide).isSome)) := by
  unfold simplifyIntegerPower
  by_cases negative : n < 0
  · rw [if_pos negative, decide_eq_true negative]
    rfl
  · rw [if_neg negative, decide_eq_false negative]
    split
    · split <;> rfl
    · rfl
    · by_cases positive : 0 < n <;> simp [positive, isNode] <;> rfl
    · by_cases positive : 0 < n <;> simp [positive, isNode, sides?] <;> rfl
    · rename_i notPower notPowers notProduct notQuotient
      rw [isNode_eq_false notPowers, isNode_eq_false notProduct, sides?_eq_none notQuotient]
      simp [Step.same]

theorem simplifySymbolicPower_changed (base exponent : Expr) :
    (simplifySymbolicPower base exponent).changed =
      match exponent.number?.bind Numeral.integer? with
      | some n => (simplifyIntegerPower base n exponent).changed
      | none => base.isIdent "e" && (exponent.argument? .ln).isSome := by
  rw [simplifySymbolicPower]
  cases exponent.number?.bind Numeral.integer? with
  | some n => rfl
  | none => cases base.isIdent "e" <;> cases exponent.argument? .ln <;> rfl

theorem simplifySymbolicPower_changed_sorted (base exponent : Expr) :
    (simplifySymbolicPower base.sorted exponent.sorted).changed =
      (simplifySymbolicPower base exponent).changed := by
  rw [simplifySymbolicPower_changed, simplifySymbolicPower_changed, number?_sorted, isIdent_sorted,
    argument?_sorted, Option.isSome_map]
  split
  · rw [simplifyIntegerPower_changed, simplifyIntegerPower_changed, isNode_sorted, isNode_sorted,
      sides?_sorted base .divide rfl, Option.isSome_map]
  · rfl

theorem simplifyNumeralPower_changed (base value : Numeral) (exponent other : Expr) :
    (simplifyNumeralPower base value exponent).changed =
      (simplifyNumeralPower base value other).changed := by
  unfold simplifyNumeralPower
  dsimp only
  split
  · rfl
  · split
    · cases base.power? value.neg <;> rfl
    · cases base.power? value <;> rfl

theorem simplifyPower_changed_sorted (base exponent : Expr) :
    (simplifyPower base.sorted exponent.sorted).changed =
      (simplifyPower base exponent).changed := by
  have symbolic := simplifySymbolicPower_changed_sorted base exponent
  cases base with
  | complex z =>
    rw [sorted_complex, simplifyPower, simplifyPower, number?_sorted]
    split
    · cases z.pow? _ <;> rfl
    · exact symbolic
  | number x =>
    rw [sorted_number, simplifyPower, simplifyPower, numeral?_sorted]
    split
    · exact simplifyNumeralPower_changed _ _ _ _
    · exact symbolic
  | call f xs => rw [sorted_call] at symbolic ⊢; exact symbolic
  | node op xs => rw [sorted_node] at symbolic ⊢; exact symbolic
  | ident name => exact symbolic

theorem simplifyQuotient_changed (a b : Expr) :
    (simplifyQuotient a b).changed = (constantQuotient? a b).isSome := by
  unfold simplifyQuotient
  cases constantQuotient? a b <;> rfl

theorem constantQuotient?_sorted (a b : Expr) :
    constantQuotient? a.sorted b.sorted = constantQuotient? a b := by
  simp only [constantQuotient?, isComplex_sorted, complex?_sorted]

/-- The integer that an operand is. -/
def operandInteger? (x : Expr) : Option Int := x.number?.bind Numeral.integer?

theorem simplifyIntegers_changed (op : Operator) (xs : List Expr) :
    (simplifyIntegers op xs).changed =
      ((xs.mapM operandInteger?).bind (integerResult? op)).isSome := by
  rw [simplifyIntegers]
  split
  · rename_i found
    exact (congrArg Option.isSome found).symm
  · rename_i found
    exact (congrArg Option.isSome found).symm

theorem mapM_map_sorted (xs : List Expr) :
    (xs.map sorted).mapM operandInteger? = xs.mapM operandInteger? := by
  induction xs with
  | nil => rfl
  | cons x xs ih =>
    rw [List.map_cons, List.mapM_cons, List.mapM_cons, ih, operandInteger?, number?_sorted,
      operandInteger?]

theorem mapM_eq_some_iff {α β : Type*} {f : α → Option β} {xs : List α} :
    (∃ ys, xs.mapM f = some ys) ↔ ∀ x ∈ xs, (f x).isSome := by
  induction xs with
  | nil => simp
  | cons x xs ih =>
    rw [List.forall_mem_cons, ← ih, List.mapM_cons]
    cases f x with
    | none => simp
    | some y => cases xs.mapM f <;> simp

theorem length_of_mapM {α β : Type*} {f : α → Option β} {xs : List α} {ys : List β}
    (h : xs.mapM f = some ys) : ys.length = xs.length := by
  induction xs generalizing ys with
  | nil => cases h; rfl
  | cons x xs ih =>
    rw [List.mapM_cons] at h
    cases first : f x with
    | none => rw [first] at h; cases h
    | some y =>
      cases rest : xs.mapM f with
      | none => rw [first, rest] at h; cases h
      | some zs =>
        rw [first, rest] at h
        cases h
        rw [List.length_cons, List.length_cons, ih rest]

/-- A bitwise operator on two integers or more always has a value. -/
theorem simplifyIntegers_changed_bitwise {op : Operator}
    (bitwise : op = .bitAnd ∨ op = .bitOr ∨ op = .bitXor) {xs : List Expr} (two : 2 ≤ xs.length) :
    (simplifyIntegers op xs).changed = true ↔ ∀ x ∈ xs, (operandInteger? x).isSome := by
  rw [simplifyIntegers_changed, ← mapM_eq_some_iff]
  cases found : xs.mapM operandInteger? with
  | none => simp
  | some ys =>
    have length := length_of_mapM found
    match ys, length with
    | [], length => simp at length; omega
    | [_], length => simp at length; omega
    | _ :: _ :: _, _ => obtain rfl | rfl | rfl := bitwise <;> simp [integerResult?]

theorem simplifyIntegers_of_sorted {op : Operator} {xs : List Expr}
    (two : op.isAssociative = true → 2 ≤ xs.length) (other : op ≠ .add ∧ op ≠ .multiply)
    (h : (simplifyIntegers op (op.arranged (xs.map sorted))).changed = false) :
    (simplifyIntegers op xs).changed = false := by
  cases associative : op.isAssociative with
  | false =>
    rwa [Operator.arranged_of_not_associative associative, simplifyIntegers_changed,
      mapM_map_sorted, ← simplifyIntegers_changed] at h
  | true =>
    have bitwise : op = .bitAnd ∨ op = .bitOr ∨ op = .bitXor := by
      cases op <;> simp_all [Operator.isAssociative]
    have long : 2 ≤ (op.arranged (xs.map sorted)).length := by
      rw [Operator.length_arranged, List.length_map]
      exact two associative
    rw [← Bool.not_eq_true, simplifyIntegers_changed_bitwise bitwise long] at h
    rw [← Bool.not_eq_true, simplifyIntegers_changed_bitwise bitwise (two associative)]
    intro all
    refine h fun x member => ?_
    obtain ⟨y, inside, rfl⟩ := List.mem_map.mp ((arranged_perm op _).mem_iff.mp member)
    rw [operandInteger?, number?_sorted]
    exact all y inside

theorem sorted_of_perm {op : Operator} (associative : op.isAssociative = true) {xs ys : List Expr}
    (perm : xs.Perm ys) : (node op xs).sorted = (node op ys).sorted := by
  rw [sorted_node, sorted_node, arranged_eq_of_perm op associative (perm.map sorted)]

/-- At a node that comes out as it was with its operands in order no more than the order of the
operands is another, and a numeral leads its product. -/
theorem collectNode_of_sorted {op : Operator} {xs : List Expr} (readable : ∀ x ∈ xs, IsReadable x)
    (flat : (node op xs).IsFlat) (restored : (differenceToSum (node op xs)).changed = false)
    (h : Idle collectNode (node op xs).sorted) :
    (collectNode (node op xs)).expr.sorted = (node op xs).sorted ∧
      (collectNode (node op xs)).expr.AllParts HasNumberFirst := by
  have numbers (x : Expr) (member : x ∈ xs) := (readable x member).numbers
  have kept (other : op ≠ .multiply) (same : collectNode (node op xs) = .same (node op xs)) :
      (collectNode (node op xs)).expr.sorted = (node op xs).sorted ∧
        (collectNode (node op xs)).expr.AllParts HasNumberFirst := by
    rw [same]
    exact ⟨rfl, allParts_node.mpr ⟨by cases op <;> trivial, numbers⟩⟩
  cases op with
  | add =>
    obtain ⟨zs, perm, result⟩ := collectSum_of_sorted readable (flat rfl).1 h
    rw [collectNode, result, sorted_of_perm rfl perm]
    exact ⟨rfl, allParts_node.mpr ⟨trivial, fun x member => numbers x (perm.mem_iff.mp member)⟩⟩
  | multiply =>
    obtain ⟨zs, perm, first, result⟩ := collectProduct_of_sorted (flat rfl).1 h
    rw [collectNode, result, sorted_of_perm rfl perm]
    exact ⟨rfl, allParts_node.mpr ⟨first, fun x member => numbers x (perm.mem_iff.mp member)⟩⟩
  | power =>
    refine kept (by decide) ?_
    match xs with
    | [a, b] =>
      have unchanged : (simplifyPower a.sorted b.sorted).changed = false := h.1
      rw [simplifyPower_changed_sorted] at unchanged
      exact Step.eq_same (simplifyPower_truthful a b) unchanged
    | [] | [_] | _ :: _ :: _ :: _ => rfl
  | subtract =>
    refine kept (by decide) ?_
    match xs with
    | [a, b] => cases restored
    | [] | [_] | _ :: _ :: _ :: _ => rfl
  | divide =>
    refine kept (by decide) ?_
    match xs with
    | [a, b] =>
      have unchanged : (simplifyQuotient a.sorted b.sorted).changed = false := h.1
      rw [simplifyQuotient_changed, constantQuotient?_sorted,
        ← simplifyQuotient_changed] at unchanged
      exact Step.eq_same (simplifyQuotient_truthful a b) unchanged
    | [] | [_] | _ :: _ :: _ :: _ => rfl
  | _ =>
    refine kept (by decide) (Step.eq_same (simplifyIntegers_truthful _ xs) ?_)
    refine simplifyIntegers_of_sorted (fun associative => (flat associative).1) (by decide) ?_
    rw [sorted_node] at h
    exact h.1

end SymbolicAlgebra
