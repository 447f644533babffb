import SymbolicAlgebra.Proofs.Ordering

/-! The canonical order of trees, and the orders of addends and factors built from it, are total
orders in which only equal trees tie. -/
namespace SymbolicAlgebra

namespace ComplexNumeral

instance : Std.TransCmp ComplexNumeral.compare :=
  have part (part : ComplexNumeral → Numeral) :
      Std.TransCmp fun z w : ComplexNumeral => (part z).compare (part w) :=
    { eq_swap := Std.OrientedCmp.eq_swap
      isLE_trans := Std.TransCmp.isLE_trans }
  have := part re
  have := part im
  inferInstanceAs (Std.TransCmp (compareLex _ _))

theorem eq_of_compare {z w : ComplexNumeral} (h : z.compare w = .eq) : z = w := by
  obtain ⟨re, im⟩ := Ordering.then_eq_eq.mp h
  cases z
  cases w
  exact congrArg₂ mk (Numeral.eq_of_compare re) (Numeral.eq_of_compare im)

end ComplexNumeral

namespace Expr

/-! ## Trees -/

/-- The kinds of two trees are looked at first. -/
theorem kindRank_then_compare (a b : Expr) :
    (Ord.compare a.kindRank b.kindRank).then (compare a b) = compare a b := by
  cases a <;> cases b <;> rfl

theorem kindRank_eq {a b : Expr} (h : compare a b = .eq) : a.kindRank = b.kindRank := by
  rw [← kindRank_then_compare, Ordering.then_eq_eq] at h
  exact compare_eq_iff_eq.mp h.1

theorem kindRank_le {a b : Expr} (h : (compare a b).isLE = true) : a.kindRank ≤ b.kindRank := by
  rw [← kindRank_then_compare, Ordering.isLE_then_iff_and] at h
  exact compare_le_iff_le.mp (Ordering.ne_gt_iff_isLE.mpr h.1)

theorem compare_of_kindRank_lt {a b : Expr} (h : a.kindRank < b.kindRank) :
    compare a b = .lt := by
  rw [← kindRank_then_compare, compare_lt_iff_lt.mpr h]
  rfl

theorem eq_of_compareAll {xs ys : List Expr}
    (each : ∀ x ∈ xs, ∀ y, compare x y = .eq → x = y) (h : compareAll xs ys = .eq) : xs = ys := by
  induction xs generalizing ys with
  | nil =>
    cases ys with
    | nil => rfl
    | cons y ys => cases h
  | cons x xs ih =>
    cases ys with
    | nil => cases h
    | cons y ys =>
      obtain ⟨here, there⟩ := List.forall_mem_cons.mp each
      obtain ⟨first, rest⟩ := Ordering.then_eq_eq.mp h
      rw [here y first, ih there rest]

theorem eq_of_compare {a b : Expr} (h : compare a b = .eq) : a = b := by
  have kinds := kindRank_eq h
  induction a generalizing b with
  | number x =>
    cases b with
    | number y => exact congrArg number (Numeral.eq_of_compare h)
    | _ => cases kinds
  | complex z =>
    cases b with
    | complex w => exact congrArg complex (ComplexNumeral.eq_of_compare h)
    | _ => cases kinds
  | ident name =>
    cases b with
    | ident name' =>
      have same : Ord.compare name name' = .eq := h
      exact congrArg ident (Std.LawfulEqCmp.eq_of_compare same)
    | _ => cases kinds
  | call f xs ih =>
    cases b with
    | call g ys =>
      obtain ⟨function, args⟩ := Ordering.then_eq_eq.mp h
      rw [NamedFunction.eq_of_compare function,
        eq_of_compareAll (fun x member y same => ih x member same (kindRank_eq same)) args]
    | _ => cases kinds
  | node op xs ih =>
    cases b with
    | node o ys =>
      obtain ⟨operator, operands⟩ := Ordering.then_eq_eq.mp h
      rw [Operator.eq_of_compare operator,
        eq_of_compareAll (fun x member y same => ih x member same (kindRank_eq same)) operands]
    | _ => cases kinds

theorem compareAll_swap {xs : List Expr}
    (each : ∀ x ∈ xs, ∀ y, compare x y = (compare y x).swap) (ys : List Expr) :
    compareAll xs ys = (compareAll ys xs).swap := by
  induction xs generalizing ys with
  | nil => cases ys <;> rfl
  | cons x xs ih =>
    cases ys with
    | nil => rfl
    | cons y ys =>
      obtain ⟨here, there⟩ := List.forall_mem_cons.mp each
      rw [compareAll, compareAll, Ordering.swap_then, here y, ih there ys]

theorem compare_swap (a b : Expr) : compare a b = (compare b a).swap := by
  induction a generalizing b with
  | number x =>
    cases b with
    | number y =>
      have numerals : x.compare y = (y.compare x).swap := Std.OrientedCmp.eq_swap
      exact numerals
    | _ => rfl
  | complex z =>
    cases b with
    | complex w =>
      have parts : z.compare w = (w.compare z).swap := Std.OrientedCmp.eq_swap
      exact parts
    | _ => rfl
  | ident name =>
    cases b with
    | ident name' =>
      have names : Ord.compare name name' = (Ord.compare name' name).swap := Std.OrientedCmp.eq_swap
      exact names
    | _ => rfl
  | call f xs ih =>
    cases b with
    | call g ys =>
      have functions : f.compare g = (g.compare f).swap := Std.OrientedCmp.eq_swap
      rw [compare, compare, Ordering.swap_then, functions, compareAll_swap ih]
    | _ => rfl
  | node op xs ih =>
    cases b with
    | node o ys =>
      have operators : op.compare o = (o.compare op).swap := Std.OrientedCmp.eq_swap
      rw [compare, compare, Ordering.swap_then, operators, compareAll_swap ih]
    | _ => rfl

/-- Between two things that tie there is nothing but what ties with both. -/
theorem ties_between {α : Type*} {order : α → α → Ordering}
    (swap : ∀ a b, order a b = (order b a).swap) (eq : ∀ {a b}, order a b = .eq → a = b) {a b c : α}
    (below : (order a b).isLE = true) (above : (order b c).isLE = true) (tie : order a c = .eq) :
    order a b = .eq ∧ order b c = .eq := by
  obtain rfl := eq tie
  rw [swap a b] at below ⊢
  cases same : order b a with
  | eq => exact ⟨rfl, rfl⟩
  | lt =>
    rw [same] at below
    cases below
  | gt =>
    rw [same] at above
    cases above

/-- The first of two keys carries the transitivity of both where only equal things tie in it. -/
theorem isLE_then_trans {o₁ o₂ o₃ p₁ p₂ p₃ : Ordering}
    (first : o₁.isLE = true → o₂.isLE = true → o₃.isLE = true)
    (ties : o₁.isLE = true → o₂.isLE = true → o₃ = .eq → o₁ = .eq ∧ o₂ = .eq)
    (second : o₁ = .eq → o₂ = .eq → p₁.isLE = true → p₂.isLE = true → p₃.isLE = true)
    (below : (o₁.then p₁).isLE = true) (above : (o₂.then p₂).isLE = true) :
    (o₃.then p₃).isLE = true := by
  rw [Ordering.isLE_then_iff_and] at below above ⊢
  refine ⟨first below.1 above.1, ?_⟩
  cases third : o₃ with
  | lt => exact .inl rfl
  | gt =>
    have := first below.1 above.1
    rw [third] at this
    cases this
  | eq =>
    obtain ⟨rfl, rfl⟩ := ties below.1 above.1 third
    exact .inr (second rfl rfl (below.2.resolve_left nofun) (above.2.resolve_left nofun))

theorem compareAll_trans {xs : List Expr}
    (each : ∀ x ∈ xs, ∀ y z, (compare x y).isLE = true → (compare y z).isLE = true →
      (compare x z).isLE = true)
    {ys zs : List Expr} (below : (compareAll xs ys).isLE = true)
    (above : (compareAll ys zs).isLE = true) : (compareAll xs zs).isLE = true := by
  induction xs generalizing ys zs with
  | nil => cases zs <;> rfl
  | cons x xs ih =>
    cases ys with
    | nil => cases below
    | cons y ys =>
      cases zs with
      | nil => cases above
      | cons z zs =>
        obtain ⟨here, there⟩ := List.forall_mem_cons.mp each
        exact isLE_then_trans (here y z) (ties_between compare_swap eq_of_compare)
          (fun _ _ => ih there) below above

/-- Only trees of one kind have to be compared by what they hold. -/
theorem trans_of_kindRank {a b c : Expr} (below : (compare a b).isLE = true)
    (above : (compare b c).isLE = true)
    (same : a.kindRank = b.kindRank → b.kindRank = c.kindRank → (compare a c).isLE = true) :
    (compare a c).isLE = true := by
  have first := kindRank_le below
  have second := kindRank_le above
  by_cases less : a.kindRank < c.kindRank
  · rw [compare_of_kindRank_lt less]
    rfl
  · exact same (by omega) (by omega)

theorem compare_trans {a b c : Expr} (below : (compare a b).isLE = true)
    (above : (compare b c).isLE = true) : (compare a c).isLE = true := by
  induction a generalizing b c with
  | number x =>
    refine trans_of_kindRank below above fun left right => ?_
    cases b <;> cases left
    cases c <;> cases right
    rename_i y z
    have order : (x.compare y).isLE = true → (y.compare z).isLE = true →
      (x.compare z).isLE = true := Std.TransCmp.isLE_trans
    exact order below above
  | complex x =>
    refine trans_of_kindRank below above fun left right => ?_
    cases b <;> cases left
    cases c <;> cases right
    rename_i y z
    have order : (x.compare y).isLE = true → (y.compare z).isLE = true →
      (x.compare z).isLE = true := Std.TransCmp.isLE_trans
    exact order below above
  | ident x =>
    refine trans_of_kindRank below above fun left right => ?_
    cases b <;> cases left
    cases c <;> cases right
    rename_i y z
    have order : (Ord.compare x y).isLE = true → (Ord.compare y z).isLE = true →
      (Ord.compare x z).isLE = true := Std.TransCmp.isLE_trans
    exact order below above
  | call f xs ih =>
    refine trans_of_kindRank below above fun left right => ?_
    cases b <;> cases left
    cases c <;> cases right
    exact isLE_then_trans Std.TransCmp.isLE_trans
      (ties_between (fun _ _ => Std.OrientedCmp.eq_swap) NamedFunction.eq_of_compare)
      (fun _ _ => compareAll_trans fun x member _ _ => ih x member) below above
  | node op xs ih =>
    refine trans_of_kindRank below above fun left right => ?_
    cases b <;> cases left
    cases c <;> cases right
    exact isLE_then_trans Std.TransCmp.isLE_trans
      (ties_between (fun _ _ => Std.OrientedCmp.eq_swap) Operator.eq_of_compare)
      (fun _ _ => compareAll_trans fun x member _ _ => ih x member) below above

instance : Std.TransCmp Expr.compare where
  eq_swap := compare_swap _ _
  isLE_trans := compare_trans

instance : Std.TransCmp Expr.compareAll where
  eq_swap := compareAll_swap (fun x _ => compare_swap x) _
  isLE_trans := compareAll_trans fun _ _ _ _ => compare_trans

/-! ## Operands -/

/-- An order of operands in which only equal ones tie. -/
structure TotalOrder (order : Expr → Expr → Ordering) : Prop where
  trans : Std.TransCmp order
  eq_of_tie : ∀ {a b}, order a b = .eq → a = b

theorem compare_total : TotalOrder compare := ⟨inferInstance, eq_of_compare⟩

theorem addendOrder_eq : addendOrder =
    compareLex (compareOn fun e => e.addendPlace.1) (compareLex (compareOn fun e => e.addendPlace.2)
      (compareLex (fun a b => compareAll a.symbolicFactors b.symbolicFactors) compare)) := rfl

theorem factorOrder_eq : factorOrder = compareLex (compareOn factorPlace) compare := rfl

theorem addendOrder_total : TotalOrder addendOrder where
  trans := by
    have : Std.TransCmp fun a b : Expr => compareAll a.symbolicFactors b.symbolicFactors :=
      { eq_swap := Std.OrientedCmp.eq_swap
        isLE_trans := Std.TransCmp.isLE_trans }
    rw [addendOrder_eq]
    infer_instance
  eq_of_tie tie := by
    rw [addendOrder_eq] at tie
    simp only [compareLex_eq_eq] at tie
    exact eq_of_compare tie.2.2.2

theorem factorOrder_total : TotalOrder factorOrder where
  trans := by
    rw [factorOrder_eq]
    infer_instance
  eq_of_tie tie := by
    rw [factorOrder_eq, compareLex_eq_eq] at tie
    exact eq_of_compare tie.2

theorem operandOrder?_total {op : Operator} {order : Expr → Expr → Ordering}
    (h : op.operandOrder? = some order) : TotalOrder order := by
  cases op <;> cases h
  · exact addendOrder_total
  · exact factorOrder_total
  all_goals exact compare_total

end Expr

/-! ## Ordered lists of operands -/

section Ordered

variable {order : Expr → Expr → Ordering}

/-- The operands in order; equal ones keep their places. -/
def ordered (order : Expr → Expr → Ordering) (xs : List Expr) : List Expr :=
  xs.mergeSort fun a b => order a b != .gt

/-- Whether no element comes before an earlier one. -/
def IsOrdered (order : Expr → Expr → Ordering) (xs : List Expr) : Prop :=
  xs.Pairwise fun a b => (order a b != .gt) = true

theorem bne_gt_iff (o : Ordering) : (o != .gt) = true ↔ o.isLE = true := by
  cases o <;> decide

theorem ordered_perm (xs : List Expr) : (ordered order xs).Perm xs := List.mergeSort_perm xs _

theorem ordered_isOrdered (total : Expr.TotalOrder order) (xs : List Expr) :
    IsOrdered order (ordered order xs) := by
  have := total.trans
  refine List.pairwise_mergeSort (fun a b c => ?_) (fun a b => ?_) xs
  · simp only [bne_gt_iff]
    exact Std.TransCmp.isLE_trans
  · have swap : order a b = (order b a).swap := Std.OrientedCmp.eq_swap
    rw [Bool.or_eq_true, bne_gt_iff, bne_gt_iff, swap]
    cases order b a <;> decide

/-- There is one ordered form of the same operands. -/
theorem IsOrdered.eq_of_perm (total : Expr.TotalOrder order) {xs ys : List Expr}
    (hx : IsOrdered order xs) (hy : IsOrdered order ys) (perm : xs.Perm ys) : xs = ys := by
  have := total.trans
  refine perm.eq_of_pairwise (fun a b _ _ below above => total.eq_of_tie ?_) hx hy
  rw [bne_gt_iff] at below above
  exact Std.OrientedCmp.isLE_antisymm below above

theorem ordered_eq_of_perm (total : Expr.TotalOrder order) {xs ys : List Expr} (perm : xs.Perm ys) :
    ordered order xs = ordered order ys :=
  (ordered_isOrdered total xs).eq_of_perm total (ordered_isOrdered total ys)
    ((ordered_perm xs).trans (perm.trans (ordered_perm ys).symm))

theorem IsOrdered.ordered_eq {xs : List Expr} (h : IsOrdered order xs) : ordered order xs = xs :=
  List.mergeSort_of_pairwise h

/-- Looking at neighbours is enough to tell whether a list is ordered. -/
theorem inOrder_iff (total : Expr.TotalOrder order) (xs : List Expr) :
    inOrder order xs = true ↔ IsOrdered order xs := by
  have := total.trans
  induction xs with
  | nil => simp [inOrder, IsOrdered]
  | cons x xs ih =>
    cases xs with
    | nil => simp [inOrder, IsOrdered]
    | cons y rest =>
      rw [inOrder, Bool.and_eq_true, IsOrdered, List.pairwise_cons]
      refine (and_congr_right fun _ => ih).trans (and_congr_left fun later => ?_)
      refine ⟨fun first z member => ?_, fun all => all y List.mem_cons_self⟩
      rcases List.mem_cons.mp member with rfl | behind
      · exact first
      · have next := (List.pairwise_cons.mp later).1 z behind
        rw [bne_gt_iff] at first next ⊢
        exact Std.TransCmp.isLE_trans first next

end Ordered

end SymbolicAlgebra
