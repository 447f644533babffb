import Mathlib.Algebra.Module.Submodule.Lattice
import Mathlib.Data.List.Permutation
import SymbolicAlgebra.Product.Coefficient
import SymbolicAlgebra.Proofs.Parts
import SymbolicAlgebra.Proofs.TreeOrdering
import SymbolicAlgebra.Rule.Flatten

/-! Flattening and then ordering operands is a canonical form for trees that differ by associativity
and commutativity: two trees without empty nodes have the same one exactly if each is made of the
other by permuting operands, splicing nested nodes and dropping nodes with one operand. -/
namespace SymbolicAlgebra

/-! ## Trees up to associativity and commutativity -/

/-- Trees that differ in the order and nesting of the operands of associative operators. An empty
node stands for its unit and is not spliced. -/
inductive Rearranged : Expr → Expr → Prop where
  | refl (e : Expr) : Rearranged e e
  | symm {a b : Expr} (h : Rearranged a b) : Rearranged b a
  | trans {a b c : Expr} (first : Rearranged a b) (second : Rearranged b c) : Rearranged a c
  | operand (op : Operator) (before : List Expr) {a b : Expr} (after : List Expr)
      (h : Rearranged a b) :
      Rearranged (.node op (before ++ a :: after)) (.node op (before ++ b :: after))
  | arg (f : NamedFunction) (before : List Expr) {a b : Expr} (after : List Expr)
      (h : Rearranged a b) :
      Rearranged (.call f (before ++ a :: after)) (.call f (before ++ b :: after))
  | permute {op : Operator} (associative : op.isAssociative = true) {xs ys : List Expr}
      (h : xs.Perm ys) : Rearranged (.node op xs) (.node op ys)
  | splice {op : Operator} (associative : op.isAssociative = true) (before : List Expr)
      {inner : List Expr} (after : List Expr) (h : inner ≠ []) :
      Rearranged (.node op (before ++ .node op inner :: after)) (.node op (before ++ inner ++ after))
  | lone {op : Operator} (associative : op.isAssociative = true) (x : Expr) :
      Rearranged (.node op [x]) x

/-- A node of an associative operator has operands. -/
def Expr.HasOperands : Expr → Prop
  | .node op xs => op.isAssociative = true → xs ≠ []
  | _ => True

instance : DecidablePred Expr.HasOperands
  | .node op xs => inferInstanceAs (Decidable (op.isAssociative = true → xs ≠ []))
  | .number _ | .complex _ | .ident _ | .call _ _ => .isTrue trivial

/-- A node of an associative operator has two operands or more, none of them with its operator. -/
def Expr.IsFlat : Expr → Prop
  | .node op xs => op.isAssociative = true → 2 ≤ xs.length ∧ ∀ x ∈ xs, x.isNode op = false
  | _ => True

/-- The operands of a commutative operator stand in its order. -/
def Expr.HasOrderedOperands : Expr → Prop
  | .node op xs => ∀ order, op.operandOrder? = some order → IsOrdered order xs
  | _ => True

open SymbolicAlgebra.Expr

/-! ## Nested nodes -/

/-- What an operand contributes to the flat node. -/
def spliced (op : Operator) : Expr → List Expr
  | .node o inner => if o = op then inner else [.node o inner]
  | x => [x]

theorem splice_eq_flatMap (op : Operator) (xs : List Expr) :
    splice op xs = xs.flatMap (spliced op) := by
  induction xs with
  | nil => rfl
  | cons x xs ih =>
    cases x with
    | node o inner =>
      rw [splice, List.flatMap_cons, spliced, ih]
      split <;> rfl
    | _ => rw [splice, List.flatMap_cons, spliced, ih] <;> first | rfl | nofun

theorem spliced_of_not_node {op : Operator} {x : Expr} (h : x.isNode op = false) :
    spliced op x = [x] := by
  cases x with
  | node o inner => exact if_neg (by simpa [isNode] using h)
  | _ => rfl

theorem eq_node_of_isNode {op : Operator} {x : Expr} (h : x.isNode op = true) :
    ∃ inner, x = .node op inner := by
  cases x with
  | node o inner =>
    obtain rfl : o = op := by simpa [isNode] using h
    exact ⟨inner, rfl⟩
  | _ => cases h

theorem isNode_eq_false {op : Operator} {x : Expr} (other : ∀ xs, x = .node op xs → False) :
    x.isNode op = false := by
  rw [← Bool.not_eq_true]
  intro node
  obtain ⟨xs, same⟩ := eq_node_of_isNode node
  exact other xs same

theorem spliced_node (op : Operator) (inner : List Expr) : spliced op (.node op inner) = inner :=
  if_pos rfl

theorem spliced_add (e : Expr) : spliced .add e = e.addends := by
  cases e with
  | node op xs => cases op <;> rfl
  | _ => rfl

theorem spliced_multiply (e : Expr) : spliced .multiply e = e.factors := by
  cases e with
  | node op xs => cases op <;> rfl
  | _ => rfl

theorem product_factors {e : Expr} (flat : e.IsFlat) : product e.factors = e := by
  unfold factors
  split
  · rename_i xs
    have some := (flat rfl).1
    match xs, some with
    | _ :: _ :: _, _ => rfl
  · rfl

theorem splice_of_flat {op : Operator} {xs : List Expr} (h : ∀ x ∈ xs, x.isNode op = false) :
    splice op xs = xs := by
  rw [splice_eq_flatMap]
  induction xs with
  | nil => rfl
  | cons x xs ih =>
    obtain ⟨here, there⟩ := List.forall_mem_cons.mp h
    rw [List.flatMap_cons, spliced_of_not_node here, ih there, List.singleton_append]

theorem splice_perm {op : Operator} {xs ys : List Expr} (h : xs.Perm ys) :
    (splice op xs).Perm (splice op ys) := by
  rw [splice_eq_flatMap, splice_eq_flatMap]
  exact h.flatMap_right _

theorem splice_append (op : Operator) (xs ys : List Expr) :
    splice op (xs ++ ys) = splice op xs ++ splice op ys := by
  simp only [splice_eq_flatMap, List.flatMap_append]

/-- A node of the operands, as flattening leaves it: none and one are no node. -/
def collapsed (op : Operator) : List Expr → Expr
  | [] => op.unit
  | [x] => x
  | xs => .node op xs

theorem collapsed_of_length {op : Operator} {xs : List Expr} (h : 2 ≤ xs.length) :
    collapsed op xs = .node op xs := by
  match xs, h with
  | _ :: _ :: _, _ => rfl

theorem flattenNode_expr (op : Operator) (xs : List Expr) :
    (flattenNode (.node op xs)).expr =
      if op.isAssociative then collapsed op (splice op xs) else .node op xs := by
  rw [flattenNode]
  split
  · generalize splice op xs = flat
    match flat with
    | [] => rfl
    | [x] => rfl
    | _ :: _ :: _ => rfl
  · rfl

/-! ## Flat trees -/

theorem Expr.IsFlat.unit (op : Operator) : AllParts IsFlat op.unit := by
  cases op <;> trivial

/-- The operands of flat operands are flat and have another operator. -/
theorem mem_splice_of_flat {op : Operator} (associative : op.isAssociative = true) {xs : List Expr}
    (h : ∀ x ∈ xs, AllParts IsFlat x) {y : Expr} (member : y ∈ splice op xs) :
    AllParts IsFlat y ∧ y.isNode op = false := by
  rw [splice_eq_flatMap, List.mem_flatMap] at member
  obtain ⟨x, inside, part⟩ := member
  cases nested : x.isNode op with
  | true =>
    obtain ⟨inner, rfl⟩ := eq_node_of_isNode nested
    rw [spliced_node] at part
    exact ⟨(h _ inside).operands y part, ((h _ inside).here associative).2 y part⟩
  | false =>
    rw [spliced_of_not_node nested, List.mem_singleton] at part
    exact part ▸ ⟨h x inside, nested⟩

theorem collapsed_flat {op : Operator} {xs : List Expr}
    (h : ∀ x ∈ xs, AllParts IsFlat x ∧ x.isNode op = false) : AllParts IsFlat (collapsed op xs) := by
  match xs with
  | [] => exact IsFlat.unit op
  | [x] => exact (h x List.mem_cons_self).1
  | x :: y :: rest =>
    exact allParts_node.mpr ⟨fun _ => ⟨Nat.le_add_left _ _, fun z member => (h z member).2⟩,
      fun z member => (h z member).1⟩

theorem flatten_flat (e : Expr) : AllParts IsFlat (flatten e).expr := by
  induction e with
  | number x => trivial
  | complex z => trivial
  | ident name => trivial
  | call f xs ih =>
    rw [flatten, everywhere_call]
    exact allParts_call.mpr ⟨trivial, List.forall_mem_map.mpr ih⟩
  | node op xs ih =>
    rw [flatten, everywhere_node, flattenNode_expr]
    split
    · rename_i associative
      exact collapsed_flat fun y => mem_splice_of_flat associative (List.forall_mem_map.mpr ih)
    · rename_i other
      exact allParts_node.mpr ⟨fun associative => absurd associative other, List.forall_mem_map.mpr ih⟩

/-- Flattening a flat tree changes nothing and says so. -/
theorem flatten_of_flat {e : Expr} (h : AllParts IsFlat e) : flatten e = .same e := by
  refine everywhere_eq_same (h.mono fun part flat => ?_)
  cases part with
  | node op xs =>
    rw [flattenNode]
    split
    · rename_i associative
      obtain ⟨long, others⟩ := flat associative
      have none : (xs.any fun x => x.isNode op) = false :=
        List.any_eq_false.mpr fun x member => by simp [others x member]
      match xs, long with
      | x :: y :: rest, _ =>
        rw [splice_of_flat others]
        exact congrArg (Step.mk _) none
    · rfl
  | _ => rfl

/-! ## Ordered trees -/

/-- The operands in the order of the operator, if it has one. -/
def Operator.arranged (op : Operator) (xs : List Expr) : List Expr :=
  match op.operandOrder? with
  | some order => ordered order xs
  | none => xs

theorem operandOrder?_isSome (op : Operator) : op.operandOrder?.isSome = op.isAssociative := by
  cases op <;> rfl

theorem arranged_perm (op : Operator) (xs : List Expr) : (op.arranged xs).Perm xs := by
  unfold Operator.arranged
  split
  · exact ordered_perm xs
  · exact .refl xs

theorem orderOperandsNode_expr (op : Operator) (xs : List Expr) :
    (orderOperandsNode (.node op xs)).expr = .node op (op.arranged xs) := by
  rw [orderOperandsNode, Operator.arranged]
  cases found : op.operandOrder? with
  | none => rfl
  | some order =>
    dsimp only
    split
    · rename_i already
      rw [((inOrder_iff (operandOrder?_total found) xs).mp already).ordered_eq]
      rfl
    · rfl

theorem orderOperands_node (op : Operator) (xs : List Expr) :
    (orderOperands (.node op xs)).expr =
      .node op (op.arranged (xs.map fun x => (orderOperands x).expr)) := by
  rw [orderOperands, everywhere_node, orderOperandsNode_expr]
  rfl

theorem isNode_orderOperands (op : Operator) (e : Expr) :
    (orderOperands e).expr.isNode op = e.isNode op := by
  cases e with
  | node o xs => rw [orderOperands_node, isNode, isNode]
  | call f xs =>
    rw [orderOperands, everywhere_call]
    rfl
  | _ => rfl

theorem orderOperands_flat {e : Expr} (h : AllParts IsFlat e) :
    AllParts IsFlat (orderOperands e).expr := by
  induction e with
  | number x => trivial
  | complex z => trivial
  | ident name => trivial
  | call f xs ih =>
    rw [orderOperands, everywhere_call]
    exact allParts_call.mpr
      ⟨trivial, List.forall_mem_map.mpr fun x member => ih x member ((allParts_call.mp h).2 x member)⟩
  | node op xs ih =>
    rw [orderOperands_node]
    have perm := arranged_perm op (xs.map fun x => (orderOperands x).expr)
    refine allParts_node.mpr ⟨fun associative => ?_, fun y member => ?_⟩
    · obtain ⟨long, others⟩ := h.here associative
      refine ⟨by rwa [perm.length_eq, List.length_map], fun y member => ?_⟩
      obtain ⟨x, inside, rfl⟩ := List.mem_map.mp (perm.mem_iff.mp member)
      rw [isNode_orderOperands, others x inside]
    · obtain ⟨x, inside, rfl⟩ := List.mem_map.mp (perm.mem_iff.mp member)
      exact ih x inside (h.operands x inside)

theorem orderOperands_ordered (e : Expr) : AllParts HasOrderedOperands (orderOperands e).expr := by
  induction e with
  | number x => trivial
  | complex z => trivial
  | ident name => trivial
  | call f xs ih =>
    rw [orderOperands, everywhere_call]
    exact allParts_call.mpr ⟨trivial, List.forall_mem_map.mpr ih⟩
  | node op xs ih =>
    rw [orderOperands_node]
    refine allParts_node.mpr ⟨fun order found => ?_, fun y member => ?_⟩
    · rw [Operator.arranged, found]
      exact ordered_isOrdered (operandOrder?_total found) _
    · obtain ⟨x, inside, rfl⟩ := List.mem_map.mp ((arranged_perm op _).mem_iff.mp member)
      exact ih x inside

/-- Ordering an ordered tree changes nothing and says so. -/
theorem orderOperands_of_ordered {e : Expr} (h : AllParts HasOrderedOperands e) :
    orderOperands e = .same e := by
  refine everywhere_eq_same (h.mono fun part sorted => ?_)
  cases part with
  | node op xs =>
    rw [orderOperandsNode]
    split
    · rename_i order found
      rw [if_pos ((inOrder_iff (operandOrder?_total found) xs).mpr (sorted order found))]
    · rfl
  | _ => rfl

/-! ## The canonical form -/

/-- The flat form with ordered operands. -/
def canonical (e : Expr) : Expr := (orderOperands (flatten e).expr).expr

theorem splice_map_perm (op : Operator) (xs : List Expr) :
    (splice op (xs.map fun x => (orderOperands x).expr)).Perm
      ((splice op xs).map fun x => (orderOperands x).expr) := by
  rw [splice_eq_flatMap, splice_eq_flatMap]
  induction xs with
  | nil => exact .nil
  | cons x xs ih =>
    rw [List.map_cons, List.flatMap_cons, List.flatMap_cons, List.map_append]
    refine .append ?_ ih
    cases nested : x.isNode op with
    | true =>
      obtain ⟨inner, rfl⟩ := eq_node_of_isNode nested
      rw [orderOperands_node, spliced_node, spliced_node]
      exact arranged_perm op _
    | false =>
      rw [spliced_of_not_node nested,
        spliced_of_not_node ((isNode_orderOperands op x).trans nested)]
      exact .refl _

theorem arranged_eq_of_perm (op : Operator) {xs ys : List Expr} (associative : op.isAssociative = true)
    (h : xs.Perm ys) : op.arranged xs = op.arranged ys := by
  rw [← operandOrder?_isSome, Option.isSome_iff_exists] at associative
  obtain ⟨order, found⟩ := associative
  rw [Operator.arranged, Operator.arranged, found]
  exact ordered_eq_of_perm (operandOrder?_total found) h

/-- The canonical node of canonical operands. -/
def arrangedNode (op : Operator) (xs : List Expr) : Expr :=
  if op.isAssociative then collapsed op (op.arranged (splice op xs)) else .node op xs

theorem canonical_call (f : NamedFunction) (xs : List Expr) :
    canonical (.call f xs) = .call f (xs.map canonical) := by
  rw [canonical, flatten, everywhere_call]
  show (orderOperands (.call f (xs.map fun x => (flatten x).expr))).expr = _
  rw [orderOperands, everywhere_call, List.map_map]
  rfl

/-- Operands may be brought into their canonical form before the node is. -/
theorem canonical_node (op : Operator) (xs : List Expr) :
    canonical (.node op xs) = arrangedNode op (xs.map canonical) := by
  have flat : (flatten (.node op xs)).expr =
      if op.isAssociative then collapsed op (splice op (xs.map fun x => (flatten x).expr))
      else .node op (xs.map fun x => (flatten x).expr) := by
    rw [flatten, everywhere_node, flattenNode_expr]
    rfl
  have inner : xs.map canonical =
      (xs.map fun x => (flatten x).expr).map fun x => (orderOperands x).expr := by
    rw [List.map_map]
    rfl
  rw [canonical, flat, arrangedNode, inner]
  generalize xs.map (fun x => (flatten x).expr) = ys
  cases associative : op.isAssociative with
  | false =>
    have unordered : op.operandOrder? = none := by
      rw [← Option.not_isSome_iff_eq_none, operandOrder?_isSome, associative]
      decide
    rw [if_neg (by decide), if_neg (by decide), orderOperands_node, Operator.arranged, unordered]
  | true =>
    rw [if_pos rfl, if_pos rfl, arranged_eq_of_perm op associative (splice_map_perm op ys)]
    match splice op ys with
    | [] =>
      have none : op.arranged [] = [] := List.perm_nil.mp (arranged_perm op [])
      rw [List.map_nil, none]
      cases op <;> rfl
    | [x] =>
      have one : op.arranged [(orderOperands x).expr] = [(orderOperands x).expr] :=
        List.perm_singleton.mp (arranged_perm op _)
      rw [List.map_singleton, one]
      rfl
    | x :: y :: rest =>
      have long : 2 ≤ (op.arranged ((x :: y :: rest).map fun x => (orderOperands x).expr)).length := by
        rw [(arranged_perm op _).length_eq, List.length_map]
        exact Nat.le_add_left _ _
      rw [collapsed_of_length long, ← orderOperands_node]
      rfl

theorem canonical_flat (e : Expr) : AllParts IsFlat (canonical e) :=
  orderOperands_flat (flatten_flat e)

theorem canonical_ordered (e : Expr) : AllParts HasOrderedOperands (canonical e) :=
  orderOperands_ordered _

/-! ## Trees that differ by associativity and commutativity have one canonical form -/

/-- A canonical node contributes the same operands as its own operands do. -/
theorem spliced_arrangedNode {op : Operator} (associative : op.isAssociative = true) {xs : List Expr}
    (flat : ∀ x ∈ xs, AllParts IsFlat x) (some : xs ≠ []) :
    (spliced op (arrangedNode op xs)).Perm (splice op xs) := by
  have others (y : Expr) (member : y ∈ splice op xs) : y.isNode op = false :=
    (mem_splice_of_flat associative flat member).2
  have perm := arranged_perm op (splice op xs)
  rw [arrangedNode, if_pos associative]
  generalize op.arranged (splice op xs) = ys at perm
  match ys with
  | [] =>
    -- Flat operands contribute something, so that there are none only for no operands.
    obtain ⟨x, rest, rfl⟩ := List.exists_cons_of_ne_nil some
    have nothing : spliced op x = [] := by
      have empty := List.nil_perm.mp perm
      rw [splice_eq_flatMap, List.flatMap_cons, List.append_eq_nil_iff] at empty
      exact empty.1
    cases nested : x.isNode op with
    | true =>
      obtain ⟨inner, rfl⟩ := eq_node_of_isNode nested
      rw [spliced_node] at nothing
      have long := ((flat _ List.mem_cons_self).here associative).1
      rw [nothing] at long
      cases long
    | false =>
      rw [spliced_of_not_node nested] at nothing
      cases nothing
  | [x] =>
    rw [collapsed, spliced_of_not_node (others x (perm.mem_iff.mp List.mem_cons_self))]
    exact perm
  | x :: y :: rest =>
    rw [collapsed_of_length (Nat.le_add_left _ _), spliced_node]
    exact perm

theorem canonical_eq_of_rearranged {s t : Expr} (h : Rearranged s t) : canonical s = canonical t := by
  induction h with
  | refl e => rfl
  | symm _ ih => exact ih.symm
  | trans _ _ first second => exact first.trans second
  | operand op before after _ ih =>
    rw [canonical_node, canonical_node, List.map_append, List.map_append, List.map_cons,
      List.map_cons, ih]
  | arg f before after _ ih =>
    rw [canonical_call, canonical_call, List.map_append, List.map_append, List.map_cons,
      List.map_cons, ih]
  | permute associative perm =>
    rw [canonical_node, canonical_node, arrangedNode, arrangedNode, if_pos associative,
      if_pos associative, arranged_eq_of_perm _ associative (splice_perm (perm.map canonical))]
  | @splice op associative before inner after some =>
    rw [canonical_node, canonical_node, arrangedNode, arrangedNode, if_pos associative,
      if_pos associative, List.append_assoc]
    refine congrArg _ (arranged_eq_of_perm op associative ?_)
    simp only [List.map_append, List.map_cons, splice_append]
    refine .append (.refl _) ?_
    rw [splice_eq_flatMap, List.flatMap_cons, ← splice_eq_flatMap, canonical_node]
    exact .append (spliced_arrangedNode associative
      (List.forall_mem_map.mpr fun x _ => canonical_flat x) (by simpa using some)) (.refl _)
  | @lone op associative x =>
    rw [canonical_node, arrangedNode, if_pos associative, List.map_singleton]
    cases nested : (canonical x).isNode op with
    | true =>
      obtain ⟨inner, same⟩ := eq_node_of_isNode nested
      have flat := canonical_flat x
      have sorted := canonical_ordered x
      rw [same] at flat sorted ⊢
      rw [splice_eq_flatMap, List.flatMap_singleton, spliced_node]
      have already : op.arranged inner = inner := by
        unfold Operator.arranged
        split
        · rename_i order found
          exact (sorted.here order found).ordered_eq
        · rfl
      rw [already, collapsed_of_length (flat.here associative).1]
    | false =>
      rw [splice_of_flat (by simpa using nested), List.perm_singleton.mp (arranged_perm op _)]
      rfl

/-! ## A tree without empty nodes and its canonical form differ by associativity and commutativity -/

namespace Rearranged

theorem operands (op : Operator) {g : Expr → Expr} {xs : List Expr}
    (each : ∀ x ∈ xs, Rearranged x (g x)) (before : List Expr) :
    Rearranged (.node op (before ++ xs)) (.node op (before ++ xs.map g)) := by
  induction xs generalizing before with
  | nil => exact refl _
  | cons x xs ih =>
    obtain ⟨here, there⟩ := List.forall_mem_cons.mp each
    refine (operand op before xs here).trans ?_
    have rest := ih there (before ++ [g x])
    rwa [List.append_assoc, List.append_assoc] at rest

theorem args (f : NamedFunction) {g : Expr → Expr} {xs : List Expr}
    (each : ∀ x ∈ xs, Rearranged x (g x)) (before : List Expr) :
    Rearranged (.call f (before ++ xs)) (.call f (before ++ xs.map g)) := by
  induction xs generalizing before with
  | nil => exact refl _
  | cons x xs ih =>
    obtain ⟨here, there⟩ := List.forall_mem_cons.mp each
    refine (arg f before xs here).trans ?_
    have rest := ih there (before ++ [g x])
    rwa [List.append_assoc, List.append_assoc] at rest

theorem spliceAll {op : Operator} (associative : op.isAssociative = true) {xs : List Expr}
    (some : ∀ x ∈ xs, spliced op x ≠ []) (before : List Expr) :
    Rearranged (.node op (before ++ xs)) (.node op (before ++ SymbolicAlgebra.splice op xs)) := by
  induction xs generalizing before with
  | nil => exact refl _
  | cons x xs ih =>
    obtain ⟨here, there⟩ := List.forall_mem_cons.mp some
    rw [splice_eq_flatMap, List.flatMap_cons, ← splice_eq_flatMap]
    have rest := ih there (before ++ spliced op x)
    rw [List.append_assoc, List.append_assoc] at rest
    refine trans ?_ rest
    cases nested : x.isNode op with
    | true =>
      obtain ⟨inner, rfl⟩ := eq_node_of_isNode nested
      rw [spliced_node] at here ⊢
      have step := splice associative before xs here
      rwa [List.append_assoc] at step
    | false =>
      rw [spliced_of_not_node nested]
      exact refl _

theorem collapsed {op : Operator} (associative : op.isAssociative = true) {xs : List Expr}
    (some : xs ≠ []) : Rearranged (.node op xs) (collapsed op xs) := by
  match xs with
  | [] => exact absurd rfl some
  | [x] => exact lone associative x
  | _ :: _ :: _ => exact refl _

theorem flatten {e : Expr} (h : AllParts HasOperands e) : Rearranged e (flatten e).expr := by
  induction e with
  | number x => exact refl _
  | complex z => exact refl _
  | ident name => exact refl _
  | call f xs ih =>
    rw [SymbolicAlgebra.flatten, everywhere_call]
    exact args f (fun x member => ih x member ((allParts_call.mp h).2 x member)) []
  | node op xs ih =>
    rw [SymbolicAlgebra.flatten, everywhere_node, flattenNode_expr]
    have below := operands op (fun x member => ih x member (h.operands x member)) []
    refine below.trans ?_
    split
    · rename_i associative
      have contributes (x : Expr) : spliced op (SymbolicAlgebra.flatten x).expr ≠ [] := by
        cases nested : (SymbolicAlgebra.flatten x).expr.isNode op with
        | true =>
          obtain ⟨inner, same⟩ := eq_node_of_isNode nested
          have flat := (flatten_flat x).here
          rw [same] at flat ⊢
          rw [spliced_node]
          rintro rfl
          exact absurd (flat associative).1 (by decide)
        | false =>
          rw [spliced_of_not_node nested]
          exact List.cons_ne_nil _ _
      refine (spliceAll associative (List.forall_mem_map.mpr fun x _ => contributes x) []).trans
        (collapsed associative ?_)
      obtain ⟨x, rest, rfl⟩ := List.exists_cons_of_ne_nil (h.here associative)
      rw [List.map_cons, splice_eq_flatMap, List.flatMap_cons]
      exact List.append_ne_nil_of_left_ne_nil (contributes x) _
    · exact refl _

theorem orderOperands (e : Expr) : Rearranged e (orderOperands e).expr := by
  induction e with
  | number x => exact refl _
  | complex z => exact refl _
  | ident name => exact refl _
  | call f xs ih =>
    rw [SymbolicAlgebra.orderOperands, everywhere_call]
    exact args f ih []
  | node op xs ih =>
    rw [orderOperands_node]
    refine (operands op ih []).trans ?_
    cases associative : op.isAssociative with
    | true => exact permute associative (arranged_perm op _).symm
    | false =>
      have unordered : op.operandOrder? = none := by
        rw [← Option.not_isSome_iff_eq_none, operandOrder?_isSome, associative]
        decide
      rw [Operator.arranged, unordered]
      exact refl _

theorem canonical {e : Expr} (h : AllParts HasOperands e) : Rearranged e (canonical e) :=
  (flatten h).trans (orderOperands _)

end Rearranged

/-- Flattening and ordering is a canonical form: two trees without empty nodes have the same one
exactly if they differ by associativity and commutativity, and it is flat, with two operands or more
in each node, and left as it is by either pass. -/
theorem orderOperands_flatten_eq_iff {s t : Expr} (hs : AllParts HasOperands s)
    (ht : AllParts HasOperands t) :
    ((orderOperands (flatten s).expr).expr = (orderOperands (flatten t).expr).expr ↔
        Rearranged s t) ∧
      AllParts IsFlat (orderOperands (flatten s).expr).expr ∧
      flatten (orderOperands (flatten s).expr).expr =
        ⟨(orderOperands (flatten s).expr).expr, false⟩ ∧
      orderOperands (orderOperands (flatten s).expr).expr =
        ⟨(orderOperands (flatten s).expr).expr, false⟩ := by
  refine ⟨⟨fun same => ?_, canonical_eq_of_rearranged⟩, canonical_flat s,
    flatten_of_flat (canonical_flat s), orderOperands_of_ordered (canonical_ordered s)⟩
  have left : Rearranged s (canonical s) := .canonical hs
  have right : Rearranged t (canonical t) := .canonical ht
  have middle : canonical s = canonical t := same
  rw [middle] at left
  exact left.trans right.symm

/-- The sum `g(b * (a * 2)) + (x ^ 2 + 1) + x`, nested. -/
def nestedOperands : Expr :=
  .add
    (.add (.apply (.other "g") (.mul (.ident "b") (.mul (.ident "a") (.ofInt 2))))
      (.add (.pow (.ident "x") (.ofInt 2)) .one))
    (.node .add [.ident "x"])

/-- The sum `1 + x + g(2 * a * b) + x ^ 2`, flat. -/
def shuffledOperands : Expr :=
  .sum [.one, .ident "x", .apply (.other "g") (.product [.ofInt 2, .ident "a", .ident "b"]),
    .pow (.ident "x") (.ofInt 2)]

/-- Operands are put in order inside calls too, and a node with one operand goes. -/
theorem rearranged_of_canonical_eq :
    AllParts HasOperands nestedOperands ∧ AllParts HasOperands shuffledOperands ∧
      Rearranged nestedOperands shuffledOperands := by
  have nested : AllParts HasOperands nestedOperands := by decide
  have shuffled : AllParts HasOperands shuffledOperands := by decide
  exact ⟨nested, shuffled,
    (orderOperands_flatten_eq_iff nested shuffled).1.mp (by cbv)⟩

end SymbolicAlgebra
