import Mathlib.Algebra.Field.Basic
import SymbolicAlgebra.Expr.Query
import SymbolicAlgebra.Proofs.ParsedTrees
import SymbolicAlgebra.Proofs.ReadBack
import SymbolicAlgebra.Proofs.Signs

/-! Text and trees agree: the text of a tree that was read is read as the same tree, except that
signs may go into the factors they are written before, which keeps the value. -/
namespace SymbolicAlgebra

/-! ## Values -/

/-- How the names in an expression are read, and the operators that are not those of a field. -/
structure Interpretation (K : Type*) where
  ident : String → K
  /-- The imaginary unit. -/
  unit : K
  call : NamedFunction → List K → Option K
  /-- Powers, remainders, the bitwise operators and the shifts. -/
  operator : Operator → List K → Option K

namespace Interpretation

variable {K : Type*} [Field K] [DecidableEq K]

/-- There is no quotient over zero. -/
def operate (I : Interpretation K) : Operator → List K → Option K
  | .add, vs => some vs.sum
  | .multiply, vs => some vs.prod
  | .subtract, [v, w] => some (v - w)
  | .divide, [v, w] => if w = 0 then none else some (v / w)
  | op, vs => I.operator op vs

/-- The value of an exact numeral. -/
def numeral? (K : Type*) [Field K] : Numeral → Option K
  | .exact r => some r
  | _ => none

mutual

/-- The value of an expression, if all of its parts have one. -/
def value? (I : Interpretation K) : Expr → Option K
  | .number x => numeral? K x
  | .complex z => do
    let re ← numeral? K z.re
    let im ← numeral? K z.im
    some (re + im * I.unit)
  | .ident name => some (I.ident name)
  | .call f xs => (values? I xs).bind (I.call f)
  | .node op xs => (values? I xs).bind (I.operate op)

def values? (I : Interpretation K) : List Expr → Option (List K)
  | [] => some []
  | x :: xs => do
    let v ← value? I x
    let vs ← values? I xs
    some (v :: vs)

end

variable {I : Interpretation K}

theorem values?_congr {xs : List Expr} {f : Expr → Expr}
    (each : ∀ x ∈ xs, I.value? (f x) = I.value? x) : I.values? (xs.map f) = I.values? xs := by
  induction xs with
  | nil => rfl
  | cons x xs ih =>
    have rest := ih fun y member => each y (List.mem_cons_of_mem x member)
    rw [List.map_cons, values?, values?, each x List.mem_cons_self, rest]

theorem value?_exact (r : Rat) : I.value? (.number (.exact r)) = some (r : K) := rfl

/-! ## Opposites -/

theorem value?_multiply (xs : List Expr) :
    I.value? (.node .multiply xs) = (I.values? xs).map List.prod := by
  rw [value?]
  cases I.values? xs <;> rfl

theorem value?_product {xs : List Expr} (nonempty : xs ≠ []) :
    I.value? (Expr.product xs) = (I.values? xs).map List.prod := by
  match xs, nonempty with
  | [x], _ =>
    rw [Expr.product, values?, values?]
    cases I.value? x with
    | none => rfl
    | some v => simp
  | x :: y :: ys, _ => exact value?_multiply (x :: y :: ys)

theorem values?_exact_cons (r : Rat) (xs : List Expr) :
    I.values? (.number (.exact r) :: xs) = (I.values? xs).map ((r : K) :: ·) := by
  rw [values?, value?_exact]
  cases I.values? xs <;> rfl

theorem values?_minus_cons (xs : List Expr) :
    I.values? (.ofInt (-1) :: xs) = (I.values? xs).map ((-1 : K) :: ·) := by
  rw [Expr.ofInt, Numeral.ofInt, values?_exact_cons]
  simp

theorem value?_minus_product (xs : List Expr) :
    I.value? (.product (.ofInt (-1) :: xs)) = (I.values? xs).map fun vs => -vs.prod := by
  rw [value?_product (List.cons_ne_nil _ _), values?_minus_cons, Option.map_map]
  congr 1
  funext vs
  simp

theorem value?_minus (x : Expr) :
    I.value? (.mul (.ofInt (-1)) x) = (I.value? x).map (- ·) := by
  have product := value?_minus_product (I := I) [x]
  rw [values?, values?] at product
  refine product.trans ?_
  cases I.value? x with
  | none => rfl
  | some v => simp

theorem value?_negateFactors {xs : List Expr} (takes : Operator.multiply.Takes xs.length)
    (each : ∀ x ∈ xs, x.Written) :
    I.value? (.product (Expr.negateFactors xs)) = (I.values? xs).map fun vs => -vs.prod := by
  have nonempty := (Expr.written_negateFactors takes each).1
  unfold Expr.negateFactors at nonempty ⊢
  split at nonempty
  · rename_i x rest
    obtain ⟨r, rfl, -⟩ := each (.number x) List.mem_cons_self
    rw [values?_exact_cons, Option.map_map]
    split at nonempty
    · rename_i one
      have minus : (r : K) = -1 := by
        have opposite : -r = 1 := by simpa [Numeral.neg, Numeral.isOne] using one
        have cast := congrArg (Rat.cast : ℚ → K) opposite
        rw [Rat.cast_neg, Rat.cast_one] at cast
        rw [← cast, neg_neg]
      simp only [one, ↓reduceIte]
      rw [value?_product nonempty, minus]
      congr 1
      funext vs
      simp
    · rename_i other
      simp only [other, Bool.false_eq_true, ↓reduceIte]
      rw [value?_product nonempty, Numeral.neg, values?_exact_cons, Option.map_map, Rat.cast_neg]
      congr 1
      funext vs
      simp
  · exact value?_minus_product xs

theorem value?_negate {e : Expr} (written : e.Written) :
    I.value? e.negate = (I.value? e).map (- ·) := by
  fun_induction Expr.negate e with
  | case1 x =>
    obtain ⟨r, rfl, -⟩ := written
    rw [Numeral.neg, value?_exact, value?_exact, Rat.cast_neg]
    rfl
  | case2 z =>
    obtain ⟨r, rfl, -⟩ := written
    simp [value?, numeral?, ComplexNumeral.neg, Numeral.neg, Numeral.zero, Numeral.ofInt]
  | case3 factors =>
    obtain ⟨takes, each⟩ := (Expr.written_node _ _).mp written
    rw [value?_negateFactors takes each, value?_multiply, Option.map_map]
    rfl
  | case4 n d ih =>
    obtain ⟨-, each⟩ := (Expr.written_node _ _).mp written
    have numerator := ih (each n List.mem_cons_self)
    simp only [value?, values?, numerator]
    cases I.value? n with
    | none => rfl
    | some v =>
      cases I.value? d with
      | none => rfl
      | some w =>
        by_cases zero : w = 0
        · simp [operate, zero]
        · simp [operate, zero, neg_div]
  | case5 e => exact value?_minus e

/-! ## What is read back -/

theorem written_reread {e : Expr} (written : e.Written) : e.reread.Written :=
  Expr.written_parse? (Expr.parse?_text written)

theorem value?_rereadNode {op : Operator} {xs : List Expr} (written : ∀ x ∈ xs, x.Written)
    (each : ∀ x ∈ xs, I.value? x.reread = I.value? x) :
    I.value? (Expr.rereadNode op xs (xs.map Expr.reread)) = I.value? (.node op xs) := by
  have node : I.value? (.node op (xs.map Expr.reread)) = I.value? (.node op xs) := by
    rw [value?, value?, values?_congr each]
  unfold Expr.rereadNode
  split
  · rename_i y z pair
    split
    · rename_i signed
      obtain ⟨rfl, opposite⟩ := signed
      unfold Expr.isOpposite at opposite
      split at opposite
      · rename_i x b
        cases pair
        rw [beq_iff_eq] at opposite
        subst opposite
        have second := List.mem_cons_of_mem (.number (.ofInt (-1))) (List.mem_singleton_self b)
        rw [value?_negate (written_reread (written b second)), each b second]
        exact (value?_minus b).symm
      · cases opposite
    · rw [← pair]
      exact node
  · exact node

/-- Reading text back keeps the value. -/
theorem value?_reread {e : Expr} (written : e.Written) : I.value? e.reread = I.value? e := by
  induction e with
  | number x => rfl
  | complex z => rfl
  | ident name => rfl
  | call f xs ih =>
    have parts := ((Expr.written_call f xs).mp written).2
    have each : ∀ x ∈ xs, I.value? x.reread = I.value? x := fun x member =>
      ih x member (parts x member)
    rw [Expr.reread, Expr.rereadAll_eq_map, value?, value?, values?_congr each]
  | node op xs ih =>
    have parts := ((Expr.written_node op xs).mp written).2
    rw [Expr.reread_node]
    exact value?_rereadNode parts fun x member => ih x member (parts x member)

end Interpretation

/-! ## Trees that are read back as they are -/

namespace Expr

/-- No sign in the tree stands before a factor that takes it. -/
def KeepsSigns (e : Expr) : Prop :=
  ∀ x, x.takesSign = true → occursIn (.mul (ofInt (-1)) x) e = false

theorem KeepsSigns.part {e x : Expr} (h : KeepsSigns e)
    (inside : ∀ target, occursIn target x = true → occursIn target e = true) : KeepsSigns x := by
  intro y takes
  by_contra occurs
  rw [Bool.not_eq_false] at occurs
  have whole := h y takes
  rw [inside _ occurs] at whole
  cases whole

theorem KeepsSigns.factor {x : Expr} (h : KeepsSigns (.mul (ofInt (-1)) x)) :
    x.takesSign = false := by
  by_contra takes
  rw [Bool.not_eq_false] at takes
  have whole := h x takes
  rw [mul, occursIn, Bool.or_eq_false_iff, beq_eq_false_iff_ne] at whole
  exact whole.1 rfl

theorem reread_of_keepsSigns {e : Expr} (h : KeepsSigns e) : e.reread = e := by
  induction e with
  | number x => rfl
  | complex z => rfl
  | ident name => rfl
  | call f xs ih =>
    have each : xs.map reread = xs.map id := List.map_congr_left fun x member =>
      ih x member (h.part fun _ occurs => occursIn_call.mpr (.inr ⟨x, member, occurs⟩))
    rw [reread, rereadAll_eq_map, each, List.map_id]
  | node op xs ih =>
    have each : xs.map reread = xs.map id := List.map_congr_left fun x member =>
      ih x member (h.part fun _ occurs => occursIn_node.mpr (.inr ⟨x, member, occurs⟩))
    rw [reread_node, each, List.map_id]
    unfold rereadNode
    split
    · rename_i y z
      split
      · rename_i signed
        obtain ⟨rfl, opposite⟩ := signed
        unfold isOpposite at opposite
        split at opposite
        · rename_i x b pair
          cases pair
          rw [beq_iff_eq] at opposite
          subst opposite
          exact negate_of_not_takesSign (KeepsSigns.factor h)
        · cases opposite
      · rfl
    · rfl

/-- What was read is read again from its text. The tree is the same unless it holds a sign before a
numeral, a product or a quotient, and its value is the same in any case. -/
theorem parse?_text_of_parse? {text : String} {e : Expr} (h : parse? text = some e) :
    ∃ e', parse? e.text = some e' ∧ (KeepsSigns e → e' = e) ∧
      ∀ (K : Type*) [Field K] [DecidableEq K] (I : Interpretation K), I.value? e' = I.value? e := by
  have written := written_parse? h
  refine ⟨e.reread, parse?_text written, reread_of_keepsSigns, ?_⟩
  intro K _ _ I
  exact Interpretation.value?_reread written

/-- The sign before a numeral goes into it, so that `-1 * 3` is written as `-3`. -/
theorem parse?_text_of_parse?_of_sign :
    parse? "-1 * 3" = some (.mul (ofInt (-1)) (ofInt 3)) ∧
      ∃ e', parse? (Expr.mul (ofInt (-1)) (ofInt 3)).text = some e' ∧
        (KeepsSigns (.mul (ofInt (-1)) (ofInt 3)) → e' = .mul (ofInt (-1)) (ofInt 3)) ∧
        ∀ (K : Type) [Field K] [DecidableEq K] (I : Interpretation K),
          I.value? e' = I.value? (.mul (ofInt (-1)) (ofInt 3)) := by
  have read : parse? "-1 * 3" = some (.mul (ofInt (-1)) (ofInt 3)) := by
    decide +kernel
  exact ⟨read, parse?_text_of_parse? read⟩

end Expr

end SymbolicAlgebra
