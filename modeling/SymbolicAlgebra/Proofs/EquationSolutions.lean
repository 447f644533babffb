import SymbolicAlgebra.Equation.Isolation
import SymbolicAlgebra.Proofs.Evaluation
import SymbolicAlgebra.Proofs.Identifiers
import SymbolicAlgebra.Proofs.LikeTerms
import SymbolicAlgebra.Proofs.SumFactoring

/-! Solving an equation for a symbol keeps its solutions, as long as no power is undone and nothing is
divided by zero. A power that is undone can lose solutions: the root of a square is one of two. -/
namespace SymbolicAlgebra

namespace Expr

mutual

/-- Whether the identifier stands in the base or the exponent of a power. -/
def inPower (name : String) : Expr → Bool
  | .node .power xs => anyMentions name xs
  | .node _ xs => anyInPower name xs
  | .call _ xs => anyInPower name xs
  | _ => false

def anyInPower (name : String) : List Expr → Bool
  | [] => false
  | x :: xs => inPower name x || anyInPower name xs

end

variable {x : String}

theorem anyInPower_eq (xs : List Expr) : anyInPower x xs = xs.any (inPower x) := by
  induction xs with
  | nil => rfl
  | cons y ys ih => rw [anyInPower, ih, List.any_cons]

theorem inPower_node {op : Operator} {xs : List Expr} (h : op ≠ .power) :
    inPower x (.node op xs) = xs.any (inPower x) := by
  rw [← anyInPower_eq]
  cases op <;> first | rfl | exact absurd rfl h

theorem splitByMention_eq (es : List Expr) :
    splitByMention x es = (es.filter (mentions x), es.filter fun e => !e.mentions x) := by
  rw [splitByMention, List.partition_eq_filter_filter]
  rfl

/-- One operand holds the symbol, and the others are those without it. -/
theorem splitByMention_eq_singleton {xs free : List Expr} {e : Expr}
    (split : splitByMention x xs = ([e], free)) :
    e ∈ xs ∧ xs.filter (mentions x) = [e] ∧ free = xs.filter fun e => !e.mentions x := by
  rw [splitByMention_eq, Prod.mk.injEq] at split
  obtain ⟨bound, others⟩ := split
  have inside : e ∈ xs.filter (mentions x) := by
    rw [bound]
    exact List.mem_cons_self
  exact ⟨(List.mem_filter.mp inside).1, bound, others.symm⟩

end Expr

namespace Equation

section Values

variable {K : Type*} [Field K]

def HasValues (R : Reading K) (eq : Equation) : Prop := R.Defined eq.left ∧ R.Defined eq.right

/-- The sides have the same value. -/
def Holds (R : Reading K) (eq : Equation) : Prop := R.val eq.left = R.val eq.right

/-- Where `a` has values, `b` has values and holds just if `a` does. -/
def KeepsSolutions (R : Reading K) (a b : Equation) : Prop :=
  a.HasValues R → b.HasValues R ∧ (a.Holds R ↔ b.Holds R)

variable {R : Reading K} {a b c : Equation}

@[refl] theorem KeepsSolutions.refl (a : Equation) : KeepsSolutions R a a := fun h => ⟨h, Iff.rfl⟩

theorem KeepsSolutions.trans (first : KeepsSolutions R a b) (second : KeepsSolutions R b c) :
    KeepsSolutions R a c := by
  intro h
  obtain ⟨between, left⟩ := first h
  obtain ⟨last, right⟩ := second between
  exact ⟨last, left.trans right⟩

theorem keepsSolutions_of_keeps {l r l' r' : Expr} (left : R.Keeps l l') (right : R.Keeps r r') :
    KeepsSolutions R ⟨l, r⟩ ⟨l', r'⟩ := by
  rintro ⟨hl, hr⟩
  obtain ⟨dl, vl⟩ := left hl
  obtain ⟨dr, vr⟩ := right hr
  refine ⟨⟨dl, dr⟩, ?_⟩
  rw [Holds, Holds, vl, vr]

end Values

/-! ## What is divided by -/

/-- What undoing the outermost operation divides by: the factors without the symbol, and the other
side where the symbol is in the divisor. -/
def outermostDivisors (x : String) (eq : Equation) : List Expr :=
  match eq.left with
  | .node .multiply xs => [.product (Expr.splitByMention x xs).2]
  | .node .divide [_, d] => if d.mentions x then [eq.right] else []
  | _ => []

/-- What undoing operations until the symbol stands alone divides by. -/
def undoneDivisors (simplify : Expr → Expr) (x : String) : Nat → Equation → List Expr
  | 0, _ => []
  | steps + 1, eq =>
    if eq.left.isIdent x then []
    else
      match eq.undoOutermost? x with
      | some next =>
        eq.outermostDivisors x ++ undoneDivisors simplify x steps ⟨next.left, simplify next.right⟩
      | none => []

/-- The equation from the side that holds the symbol, simplified and gathered on that side. -/
def gathered (simplify : Expr → Expr) (x : String) (eq : Equation) : Equation :=
  let facing : Equation := if eq.left.mentions x then eq else ⟨eq.right, eq.left⟩
  collectSymbol simplify x ⟨simplify facing.left, simplify facing.right⟩

/-- All that solving for a symbol divides by, with the symbol itself where it is left on both
sides. -/
def divisors (simplify : Expr → Expr) (x : String) (eq : Equation) : List Expr :=
  let start := eq.gathered simplify x
  start.undoneDivisors simplify x stepLimit ++
    match start.undoAll? simplify x stepLimit with
    | some alone => if alone.right.mentions x then [.ident x] else []
    | none => []

/-- Both sides after an attempt to solve, and whether it succeeded. -/
def attempt (simplify : Expr → Expr) (x : String) (eq : Equation) : Equation × Bool :=
  match eq.solveUsing? simplify x with
  | some solution => (solution, true)
  | none => (eq, false)

section Steps

variable {K : Type*} [Field K] {R : Reading K} {simplify : Expr → Expr} {x : String}
  {eq next alone solution : Equation}

/-! ## Gathering the symbol -/

/-- A term with the symbol as a factor is the symbol times its cofactor. -/
theorem cofactor_spec {term cofactor : Expr} (h : R.Defined term)
    (found : (term.factors.findIdx? (Expr.isIdent x)).map
      (fun i => Expr.product (term.factors.eraseIdx i)) = some cofactor) :
    R.Defined cofactor ∧ R.val term = R.ident x * R.val cofactor := by
  obtain ⟨i, position, rfl⟩ := Option.map_eq_some_iff.mp found
  obtain ⟨inside, isSymbol, -⟩ := List.findIdx?_eq_some_iff_getElem.mp position
  have symbol : term.factors[i]? = some (.ident x) := by
    rw [List.getElem?_eq_getElem inside, Expr.eq_ident_of_isIdent isSymbol]
  have moved := eraseIdx_perm symbol
  have each := (Reading.defined_factors (R := R) term).mpr h
  refine ⟨(Reading.defined_product _).mpr fun f member => each f (List.mem_of_mem_eraseIdx member),
    ?_⟩
  rw [← Reading.prod_factors term, ← (moved.map R.val).prod_eq, List.map_cons, List.prod_cons,
    Reading.val_ident, Reading.val_product]

theorem sum_cofactors {terms cs : List Expr} (h : ∀ t ∈ terms, R.Defined t)
    (found : terms.mapM (fun term => (term.factors.findIdx? (Expr.isIdent x)).map
      fun i => Expr.product (term.factors.eraseIdx i)) = some cs) :
    (∀ c ∈ cs, R.Defined c) ∧ (terms.map R.val).sum = R.ident x * (cs.map R.val).sum := by
  induction terms generalizing cs with
  | nil =>
    cases found
    simp
  | cons term terms ih =>
    simp only [List.mapM_cons, Option.bind_eq_bind, Option.bind_eq_some_iff, Option.pure_def,
      Option.some.injEq] at found
    obtain ⟨c, first, others, rest, rfl⟩ := found
    obtain ⟨hc, value⟩ := cofactor_spec (h term List.mem_cons_self) first
    obtain ⟨hcs, total⟩ := ih (fun t member => h t (List.mem_cons_of_mem _ member)) rest
    refine ⟨List.forall_mem_cons.mpr ⟨hc, hcs⟩, ?_⟩
    rw [List.map_cons, List.sum_cons, List.map_cons, List.sum_cons, value, total, mul_add]

/-- Something taken off both sides. -/
theorem holds_of_moved {l r : Expr} {moved : K} (hl : R.Defined l) (hr : R.Defined r)
    (left : R.val l + moved = R.val eq.left) (right : R.val r = R.val eq.right - moved) :
    HasValues R ⟨l, r⟩ ∧ (eq.Holds R ↔ Holds R ⟨l, r⟩) := by
  refine ⟨⟨hl, hr⟩, ?_⟩
  rw [Holds, Holds, right, ← left, eq_sub_iff_add_eq]

/-- The right side without the addends that are moved there. -/
theorem free_spec (keeps : ∀ e, R.Keeps e (simplify e)) {right : Expr} {free : List Expr}
    (hr : R.Defined right) (h : ∀ t ∈ free, R.Defined t) :
    let moved := if free.isEmpty then right else simplify (.sub right (.sum free))
    R.Defined moved ∧ R.val moved = R.val right - (free.map R.val).sum := by
  dsimp only
  split
  · rename_i none
    rw [List.isEmpty_iff.mp none]
    exact ⟨hr, by simp⟩
  · have difference := keeps (.sub right (.sum free))
      ((Reading.defined_sub _ _).mpr ⟨hr, (Reading.defined_sum _).mpr h⟩)
    rwa [Reading.val_sub, Reading.val_sum] at difference

/-- Moving addends across and factoring the symbol out keep the solutions. -/
theorem collectSymbol_keepsSolutions (only : R.OnlyArithmetic)
    (keeps : ∀ e, R.Keeps e (simplify e)) :
    KeepsSolutions R eq (eq.collectSymbol simplify x) := by
  intro h
  obtain ⟨flat, same⟩ := Reading.sumForm_keeps only eq.left h.1
  unfold collectSymbol
  split
  · rename_i terms sum
    rw [sum, Reading.defined_node_add] at flat
    rw [sum, Reading.val_node_add,
      ← Reading.sum_filter_add_sum_filter_not (Expr.mentions x) terms] at same
    rw [Expr.splitByMention_eq]
    dsimp only
    obtain ⟨right, moved⟩ := free_spec keeps h.2
      (Reading.defined_filter (p := fun e => !e.mentions x) flat)
    have bound := Reading.defined_filter (p := Expr.mentions x) flat
    split
    · rename_i cs found
      obtain ⟨-, cofactors⟩ := Option.ite_none_left_eq_some.mp found
      obtain ⟨defined, factored⟩ := sum_cofactors bound cofactors
      refine holds_of_moved ?_ right ?_ moved
      · simpa using defined
      · rw [← same, factored]
        simp
    · refine holds_of_moved ((Reading.defined_sum _).mpr bound) right ?_ moved
      rw [Reading.val_sum, same]
  · exact ⟨h, Iff.rfl⟩

/-! ## Undoing one operation -/

/-- Among the operands of a node, those with the symbol are as far from a power as the node. -/
theorem not_inPower_of_mem {op : Operator} {xs : List Expr} {e : Expr} (other : op ≠ .power)
    (h : (Expr.node op xs).inPower x = false) (member : e ∈ xs) : e.inPower x = false := by
  rw [Expr.inPower_node other, List.any_eq_false] at h
  exact Bool.eq_false_iff.mpr (h e member)

/-- A sum with one addend that holds the symbol. -/
theorem undoSum_keepsSolutions {xs free : List Expr} {e : Expr} (right : Expr)
    (split : Expr.splitByMention x xs = ([e], free)) :
    e ∈ xs ∧ KeepsSolutions R ⟨.node .add xs, right⟩ ⟨e, .sub right (.sum free)⟩ := by
  obtain ⟨member, bound, rfl⟩ := Expr.splitByMention_eq_singleton split
  refine ⟨member, ?_⟩
  rintro ⟨hl, hr⟩
  have each := (Reading.defined_node_add xs).mp hl
  refine ⟨⟨each e member, ?_⟩, ?_⟩
  · exact (Reading.defined_sub _ _).mpr
      ⟨hr, (Reading.defined_sum _).mpr (Reading.defined_filter each)⟩
  · have total := Reading.sum_filter_add_sum_filter_not (R := R) (Expr.mentions x) xs
    rw [bound, List.map_singleton, List.sum_singleton] at total
    rw [Holds, Holds, Reading.val_node_add, Reading.val_sub, Reading.val_sum, ← total,
      eq_sub_iff_add_eq]

/-- A product with one factor that holds the symbol, where the others do not multiply to zero. -/
theorem undoProduct_keepsSolutions {xs free : List Expr} {e : Expr} (right : Expr)
    (split : Expr.splitByMention x xs = ([e], free)) (nonzero : R.val (.product free) ≠ 0) :
    e ∈ xs ∧ KeepsSolutions R ⟨.node .multiply xs, right⟩ ⟨e, .div right (.product free)⟩ := by
  obtain ⟨member, bound, rfl⟩ := Expr.splitByMention_eq_singleton split
  refine ⟨member, ?_⟩
  rintro ⟨hl, hr⟩
  have each := (Reading.defined_node_multiply xs).mp hl
  refine ⟨⟨each e member, ?_⟩, ?_⟩
  · exact (Reading.defined_div _ _).mpr
      ⟨hr, (Reading.defined_product _).mpr (Reading.defined_filter each), nonzero⟩
  · have total := Reading.prod_filter_mul_prod_filter_not (R := R) (Expr.mentions x) xs
    rw [bound, List.map_singleton, List.prod_singleton, ← Reading.val_product] at total
    rw [Holds, Holds, Reading.val_node_multiply, Reading.val_div, ← total, eq_div_iff nonzero]

/-- A difference or a quotient with the symbol on one side. -/
theorem undoBinary?_keepsSolutions {op : Operator} {a b right : Expr}
    (other : op ≠ .power) (undone : undoBinary? x op a b right = some next)
    (nonzero : op = .divide → b.mentions x = true → R.val right ≠ 0) :
    (next.left = a ∨ next.left = b) ∧ KeepsSolutions R ⟨.node op [a, b], right⟩ next := by
  unfold undoBinary? at undone
  split at undone
  · cases undone
    refine ⟨.inl rfl, ?_⟩
    rintro ⟨hl, hr⟩
    obtain ⟨ha, hb⟩ := (Reading.defined_node_subtract a b).mp hl
    refine ⟨⟨ha, by simp [hr, hb]⟩, ?_⟩
    simp [Holds, sub_eq_iff_eq_add]
  · cases undone
    refine ⟨.inr rfl, ?_⟩
    rintro ⟨hl, hr⟩
    obtain ⟨ha, hb⟩ := (Reading.defined_node_subtract a b).mp hl
    refine ⟨⟨hb, by simp [ha, hr]⟩, ?_⟩
    simp only [Holds, Reading.val_node_subtract, Reading.val_sub]
    rw [sub_eq_iff_eq_add', eq_sub_iff_add_eq, eq_comm]
  · cases undone
    refine ⟨.inl rfl, ?_⟩
    rintro ⟨hl, hr⟩
    obtain ⟨ha, hb, divisor⟩ := (Reading.defined_node_divide a b).mp hl
    refine ⟨⟨ha, by simp [hr, hb]⟩, ?_⟩
    simp [Holds, div_eq_iff divisor]
  · rename_i holds
    cases undone
    refine ⟨.inr rfl, ?_⟩
    rintro ⟨hl, hr⟩
    obtain ⟨ha, hb, divisor⟩ := (Reading.defined_node_divide a b).mp hl
    have reciprocal := nonzero rfl holds
    refine ⟨⟨hb, by simp [ha, hr, reciprocal]⟩, ?_⟩
    simp only [Holds, Reading.val_node_divide, Reading.val_div]
    rw [div_eq_iff divisor, eq_div_iff reciprocal, mul_comm, eq_comm]
  · exact absurd rfl other
  · exact absurd rfl other
  · cases undone

/-- One operation undone keeps the solutions, where no power is undone and nothing divided by is
zero. -/
theorem undoOutermost?_keepsSolutions (noCalls : ∀ f vs, R.call f vs = none)
    (undone : eq.undoOutermost? x = some next) (arithmetic : eq.left.inPower x = false)
    (nonzero : ∀ d ∈ eq.outermostDivisors x, R.val d ≠ 0) :
    next.left.inPower x = false ∧ KeepsSolutions R eq next := by
  obtain ⟨left, right⟩ := eq
  unfold undoOutermost? at undone
  dsimp only at undone arithmetic
  split at undone
  case h_1 xs =>
    split at undone
    · rename_i e free split
      cases undone
      obtain ⟨member, same⟩ := undoSum_keepsSolutions (R := R) right split
      exact ⟨not_inPower_of_mem (by decide) arithmetic member, same⟩
    · cases undone
  case h_2 xs =>
    split at undone
    · rename_i e free split
      cases undone
      have divisor : R.val (.product free) ≠ 0 :=
        nonzero _ (by simp [outermostDivisors, split])
      obtain ⟨member, same⟩ := undoProduct_keepsSolutions right split divisor
      exact ⟨not_inPower_of_mem (by decide) arithmetic member, same⟩
    · cases undone
  case h_3 op a b notSum notProduct =>
    by_cases power : op = .power
    · -- the symbol stands on one side of the power, which is excluded
      subst power
      have free : a.mentions x = false ∧ b.mentions x = false := by
        simpa [Expr.inPower, Expr.anyMentions] using arithmetic
      simp [undoBinary?, free.1, free.2] at undone
    · obtain ⟨side, same⟩ := undoBinary?_keepsSolutions (R := R) power undone
        fun divide holds => nonzero _ (by subst divide; simp [outermostDivisors, holds])
      refine ⟨?_, same⟩
      rcases side with first | second
      · rw [first]
        exact not_inPower_of_mem power arithmetic (by simp)
      · rw [second]
        exact not_inPower_of_mem power arithmetic (by simp)
  case h_4 f arg =>
    have inside : arg.inPower x = false := by
      simpa [Expr.inPower, Expr.anyInPower] using arithmetic
    have argument : next.left = arg := by
      unfold undoFunction? at undone
      split at undone
      · cases undone; rfl
      · cases undone; rfl
      · cases undone; rfl
      · obtain ⟨g, -, rfl⟩ := Option.map_eq_some_iff.mp undone
        rfl
    refine ⟨argument ▸ inside, fun h => ?_⟩
    have hl := h.1
    rw [Reading.defined_call, noCalls] at hl
    simp at hl
  case h_5 => cases undone

/-! ## Undoing all operations -/

theorem left_of_undoAll? {steps : Nat} (undone : eq.undoAll? simplify x steps = some alone) :
    alone.left = .ident x := by
  induction steps generalizing eq with
  | zero =>
    rw [undoAll?] at undone
    obtain ⟨isSymbol, same⟩ := Option.ite_none_right_eq_some.mp undone
    exact Option.some.inj same ▸ Expr.eq_ident_of_isIdent isSymbol
  | succ steps ih =>
    rw [undoAll?] at undone
    split at undone
    · rename_i isSymbol
      cases undone
      exact Expr.eq_ident_of_isIdent isSymbol
    · split at undone
      · exact ih undone
      · cases undone

/-- Operations are undone one at a time, and the other side is simplified in between. -/
theorem undoAll?_keepsSolutions (noCalls : ∀ f vs, R.call f vs = none)
    (keeps : ∀ e, R.Keeps e (simplify e)) {steps : Nat}
    (undone : eq.undoAll? simplify x steps = some alone) (arithmetic : eq.left.inPower x = false)
    (nonzero : ∀ d ∈ eq.undoneDivisors simplify x steps, R.val d ≠ 0) :
    KeepsSolutions R eq alone := by
  induction steps generalizing eq with
  | zero =>
    rw [undoAll?] at undone
    obtain ⟨-, same⟩ := Option.ite_none_right_eq_some.mp undone
    exact Option.some.inj same ▸ KeepsSolutions.refl eq
  | succ steps ih =>
    rw [undoAll?] at undone
    rw [undoneDivisors] at nonzero
    split at undone
    · cases undone
      rfl
    · rename_i notAlone
      rw [if_neg notAlone] at nonzero
      split at undone
      · rename_i next step
        rw [step] at nonzero
        obtain ⟨inner, first⟩ := undoOutermost?_keepsSolutions noCalls step arithmetic
          fun d member => nonzero d (List.mem_append_left _ member)
        have simplified : KeepsSolutions R next ⟨next.left, simplify next.right⟩ :=
          keepsSolutions_of_keeps (Reading.Keeps.refl _) (keeps _)
        exact (first.trans simplified).trans
          (ih undone inner fun d member => nonzero d (List.mem_append_right _ member))
      · cases undone

/-! ## Dividing by the symbol -/

/-- The symbol is on the left alone, or both sides are divided by it. -/
theorem divideOut?_cases (divided : alone.divideOut? simplify x = some solution) :
    solution.right.mentions x = false ∧
      (solution = alone ∨ alone.right.mentions x = true ∧ solution =
        ⟨simplify (.div alone.left (.ident x)), simplify (.div alone.right (.ident x))⟩) := by
  unfold divideOut? at divided
  split at divided
  · rename_i free
    cases divided
    exact ⟨by simpa using free, .inl rfl⟩
  · rename_i holds
    split at divided
    · cases divided
    · obtain ⟨free, same⟩ := Option.ite_none_left_eq_some.mp divided
      cases same
      exact ⟨by simpa using free, .inr ⟨by simpa using holds, rfl⟩⟩

theorem divideOut?_keepsSolutions (keeps : ∀ e, R.Keeps e (simplify e))
    (divided : alone.divideOut? simplify x = some solution)
    (nonzero : alone.right.mentions x = true → R.ident x ≠ 0) :
    KeepsSolutions R alone solution := by
  obtain ⟨-, rfl | ⟨holds, rfl⟩⟩ := divideOut?_cases divided
  · rfl
  · have symbol : R.val (.ident x) ≠ 0 := nonzero holds
    intro h
    have quotient {e : Expr} (he : R.Defined e) : R.Defined (.div e (.ident x)) :=
      (Reading.defined_div _ _).mpr ⟨he, trivial, symbol⟩
    obtain ⟨hl, left⟩ := keeps _ (quotient h.1)
    obtain ⟨hr, right⟩ := keeps _ (quotient h.2)
    refine ⟨⟨hl, hr⟩, ?_⟩
    rw [Holds, Holds, left, right, Reading.val_div, Reading.val_div, div_left_inj' symbol]

/-! ## Solving -/

/-- What a solution comes from: the gathered equation, with all operations undone and the symbol
divided out. -/
theorem exists_of_solveUsing? (solved : eq.solveUsing? simplify x = some solution) :
    ∃ alone, (eq.gathered simplify x).undoAll? simplify x stepLimit = some alone ∧
      alone.divideOut? simplify x = some solution := by
  have isolated (facing : Equation)
      (h : isolate? simplify x ⟨simplify facing.left, simplify facing.right⟩ = some solution) :
      ∃ alone, (collectSymbol simplify x
          ⟨simplify facing.left, simplify facing.right⟩).undoAll? simplify x stepLimit =
            some alone ∧ alone.divideOut? simplify x = some solution := by
    unfold isolate? at h
    obtain ⟨-, found⟩ := Option.ite_none_right_eq_some.mp h
    exact Option.bind_eq_some_iff.mp found
  unfold solveUsing? at solved
  unfold gathered
  split at solved
  · rename_i onLeft
    rw [if_pos onLeft]
    exact isolated eq solved
  · rename_i notLeft
    rw [if_neg notLeft]
    split at solved
    · exact isolated ⟨eq.right, eq.left⟩ solved
    · cases solved

theorem gathered_keepsSolutions (only : R.OnlyArithmetic) (keeps : ∀ e, R.Keeps e (simplify e)) :
    KeepsSolutions R eq (eq.gathered simplify x) := by
  have facing : KeepsSolutions R eq (if eq.left.mentions x then eq else ⟨eq.right, eq.left⟩) := by
    split
    · rfl
    · exact fun h => ⟨⟨h.2, h.1⟩, eq_comm⟩
  exact (facing.trans (keepsSolutions_of_keeps (keeps _) (keeps _))).trans
    (collectSymbol_keepsSolutions only keeps)

theorem solveUsing?_keepsSolutions (only : R.OnlyArithmetic) (noCalls : ∀ f vs, R.call f vs = none)
    (keeps : ∀ e, R.Keeps e (simplify e)) (solved : eq.solveUsing? simplify x = some solution)
    (arithmetic : (eq.gathered simplify x).left.inPower x = false)
    (nonzero : ∀ d ∈ eq.divisors simplify x, R.val d ≠ 0) : KeepsSolutions R eq solution := by
  obtain ⟨alone, undone, divided⟩ := exists_of_solveUsing? solved
  have all := undoAll?_keepsSolutions noCalls keeps undone arithmetic fun d member =>
    nonzero d (List.mem_append_left _ member)
  refine ((gathered_keepsSolutions only keeps).trans all).trans
    (divideOut?_keepsSolutions keeps divided fun holds => nonzero (.ident x) ?_)
  refine List.mem_append_right _ ?_
  rw [undone]
  simp [holds]

end Steps

/-- An attempt to solve that fails leaves both sides as they are. One that succeeds gives a right side
without the symbol, and on the left the symbol or something with the value one; and if the symbol
stood in no power once it was gathered, both equations hold at the same places, wherever the given
sides have values and nothing that was divided by is zero. -/
theorem attempt_keepsSolutions {K : Type*} [Field K] {simplify : Expr → Expr}
    (keeps : ∀ (env : String → K) (e : Expr), (Reading.ofAssignment env).Keeps e (simplify e))
    (x : String) (eq : Equation) :
    ((eq.attempt simplify x).2 = false → (eq.attempt simplify x).1 = eq) ∧
    ((eq.attempt simplify x).2 = true →
      (eq.attempt simplify x).1.right.mentions x = false ∧
      ((eq.attempt simplify x).1.left = .ident x ∨
        ∀ env : String → K, env x ≠ 0 →
          (Reading.ofAssignment env).Defined (eq.attempt simplify x).1.left ∧
          (Reading.ofAssignment env).val (eq.attempt simplify x).1.left = 1) ∧
      ((eq.gathered simplify x).left.inPower x = false →
        ∀ env : String → K, eq.HasValues (.ofAssignment env) →
          (∀ d ∈ eq.divisors simplify x, (Reading.ofAssignment env).val d ≠ 0) →
          (eq.attempt simplify x).1.HasValues (.ofAssignment env) ∧
          (eq.Holds (.ofAssignment env) ↔
            (eq.attempt simplify x).1.Holds (.ofAssignment env)))) := by
  unfold attempt
  cases solved : eq.solveUsing? simplify x with
  | none => exact ⟨fun _ => rfl, nofun⟩
  | some solution =>
    refine ⟨nofun, fun _ => ?_⟩
    obtain ⟨alone, undone, divided⟩ := exists_of_solveUsing? solved
    obtain ⟨free, sides⟩ := divideOut?_cases divided
    refine ⟨free, ?_, fun arithmetic env values nonzero => ?_⟩
    · have symbol := left_of_undoAll? undone
      obtain rfl | ⟨-, rfl⟩ := sides
      · exact .inl symbol
      · refine .inr fun env nonzero => ?_
        have ratio : (Reading.ofAssignment env).Defined (.div alone.left (.ident x)) := by
          rw [symbol]
          exact (Reading.defined_div _ _).mpr ⟨trivial, trivial, nonzero⟩
        obtain ⟨defined, value⟩ := keeps env _ ratio
        refine ⟨defined, value.trans ?_⟩
        rw [symbol]
        exact div_self nonzero
    · exact solveUsing?_keepsSolutions (Reading.ofAssignment_onlyArithmetic env) (fun _ _ => rfl)
        (keeps env) solved arithmetic nonzero values

/-- `x * y + 2 * x - z = w`. -/
def factorable : Equation :=
  ⟨.sub (.add (.mul (.ident "x") (.ident "y")) (.mul (.ofInt 2) (.ident "x"))) (.ident "z"),
    .ident "w"⟩

/-- The equation `x * y + 2 * x - z = w` becomes `x = (w - (-1) * z) / (y + 2)`. -/
theorem attempt_keepsSolutions_of_factorable :
    let solution : Equation := ⟨.ident "x", .div (.sub (.ident "w") (.mul (.ofInt (-1)) (.ident "z")))
      (.add (.ident "y") (.ofInt 2))⟩
    let env : String → ℚ := fun name => if name = "w" then 5 else if name = "x" then 2 else 1
    (∀ (env : String → ℚ) e, (Reading.ofAssignment env).Keeps e (id e)) ∧
      factorable.attempt id "x" = (solution, true) ∧
      (factorable.gathered id "x").left.inPower "x" = false ∧
      factorable.HasValues (.ofAssignment env) ∧
      (∀ d ∈ factorable.divisors id "x", (Reading.ofAssignment env).val d ≠ 0) ∧
      (factorable.Holds (.ofAssignment env) ↔ solution.Holds (.ofAssignment env)) := by
  intro solution env
  have keeps (env : String → ℚ) (e : Expr) : (Reading.ofAssignment env).Keeps e (id e) :=
    Reading.Keeps.refl e
  have solved : factorable.attempt id "x" = (solution, true) := by decide +kernel
  have arithmetic : (factorable.gathered id "x").left.inPower "x" = false := by decide +kernel
  have values : factorable.HasValues (.ofAssignment env) := by
    simp [factorable, HasValues]
  have divisors : factorable.divisors id "x" = [.add (.ident "y") (.ofInt 2)] := by decide +kernel
  have nonzero : ∀ d ∈ factorable.divisors id "x", (Reading.ofAssignment env).val d ≠ 0 := by
    rw [divisors]
    simp [env, Reading.ofAssignment]
    norm_num
  have same := (((attempt_keepsSolutions keeps "x" factorable).2 (by rw [solved])).2.2 arithmetic env
    values nonzero).2
  rw [solved] at same
  exact ⟨keeps, solved, arithmetic, values, nonzero, same⟩

/-! ## Powers -/

/-- Writes `x * x` as `x ^ 2`, and nothing else. -/
def squareX (e : Expr) : Expr :=
  if e = .mul (.ident "x") (.ident "x") then .pow (.ident "x") (.ofInt 2) else e

theorem squareX_keeps {K : Type*} [Field K] [CharZero K] (R : Reading K) (e : Expr) :
    R.Keeps e (squareX e) := by
  unfold squareX
  split
  · rename_i square
    rw [square]
    intro _
    rw [Reading.defined_pow, Reading.val_pow, Reading.val_mul, Reading.val_ofInt,
      Reading.power_intCast]
    exact ⟨⟨trivial, rfl, 2, rfl, fun _ => by decide⟩, by rw [zpow_ofNat, pow_two]⟩
  · exact Reading.Keeps.refl e

/-- `x * x = y`. -/
def squareEquation : Equation := ⟨.mul (.ident "x") (.ident "x"), .ident "y"⟩

/-- `x = y ^ (1 / 2)`. -/
def rootEquation : Equation := ⟨.ident "x", .pow (.ident "y") (.div .one (.ofInt 2))⟩

theorem solve?_square : squareEquation.solve? "x" = some rootEquation := by
  have left : normalForm squareEquation.left = .pow (.ident "x") (.ofInt 2) := by
    rw [normalForm_eq]
    decide +kernel
  have right : normalForm squareEquation.right = .ident "y" := by
    rw [normalForm_eq]
    decide +kernel
  have root : normalForm rootEquation.right = rootEquation.right := by
    rw [normalForm_eq]
    decide +kernel
  have gathered : collectSymbol normalForm "x" ⟨.pow (.ident "x") (.ofInt 2), .ident "y"⟩ =
      ⟨.pow (.ident "x") (.ofInt 2), .ident "y"⟩ := rfl
  have undone : undoAll? normalForm "x" stepLimit ⟨.pow (.ident "x") (.ofInt 2), .ident "y"⟩ =
      some ⟨.ident "x", normalForm rootEquation.right⟩ := rfl
  have facing : squareEquation.solve? "x" =
      isolate? normalForm "x" ⟨normalForm squareEquation.left, normalForm squareEquation.right⟩ := rfl
  have once : (Expr.pow (.ident "x") (.ofInt 2)).identCount "x" = 1 := rfl
  have alone : divideOut? normalForm "x" rootEquation = some rootEquation := rfl
  rw [facing, left, right, isolate?, gathered, if_pos once, undone, root, Option.bind_some]
  exact alone

/-- Undoing a power can lose solutions. `x * x = y`, with the product simplified to a square, becomes
`x = y ^ (1 / 2)`, both with a simplifier that keeps all values and with the normal form, and nothing
is divided by. However the right side is read, it does not depend on `x`, so for `y = 4` it is not
both of the solutions `2` and `-2`. -/
theorem solve?_square_loses_solution :
    (∀ (env : String → ℚ) (e : Expr), (Reading.ofAssignment env).Keeps e (squareX e)) ∧
      squareEquation.solveUsing? squareX "x" = some rootEquation ∧
      squareEquation.solve? "x" = some rootEquation ∧
      squareEquation.divisors squareX "x" = [] ∧ rootEquation.right.mentions "x" = false ∧
      ∀ root : (String → ℚ) → Option ℚ, (∀ env v, root (Function.update env "x" v) = root env) →
        ∃ env : String → ℚ, squareEquation.HasValues (.ofAssignment env) ∧
          ¬ (squareEquation.Holds (.ofAssignment env) ↔ root env = some (env "x")) := by
  refine ⟨fun env => squareX_keeps (.ofAssignment env), by decide +kernel, solve?_square,
    by decide +kernel, by decide, fun root unmoved => ?_⟩
  let at4 (v : ℚ) : String → ℚ := Function.update (fun _ => 4) "x" v
  have values (v : ℚ) : squareEquation.HasValues (.ofAssignment (at4 v)) := by
    simp [squareEquation, HasValues]
  have holds (v : ℚ) : squareEquation.Holds (.ofAssignment (at4 v)) ↔ v * v = 4 := by
    simp [squareEquation, Holds, Reading.ofAssignment, at4]
  by_contra equivalent
  have solution (v : ℚ) (square : v * v = 4) : root (fun _ => 4) = some v := by
    have same := not_not.mp fun differ => equivalent ⟨at4 v, values v, differ⟩
    have value := same.mp ((holds v).mpr square)
    rw [unmoved] at value
    simpa [at4] using value
  have both := (solution 2 (by norm_num)).symm.trans (solution (-2) (by norm_num))
  norm_num at both

end Equation

end SymbolicAlgebra
