import Mathlib.Data.Complex.Basic
import SymbolicAlgebra.Proofs.Cancellation
import SymbolicAlgebra.Proofs.LoopRuns
import SymbolicAlgebra.Proofs.Parts

/-! Cancellation as a whole: inner divisors are moved until neither side is a quotient, which ends,
and what is left has the value of the quotient. -/
namespace SymbolicAlgebra

namespace Quotient

/-- One move of an inner divisor to the other side, that of the numerator first. -/
def flattenTurn (q : Quotient) : Option Quotient :=
  match q.num.sides? .divide, q.den.sides? .divide with
  | some (a, b), _ => some ⟨a, b.times q.den⟩
  | none, some (b, c) => some ⟨q.num.times c, b⟩
  | none, none => none

/-- The number of quotients on both sides. -/
def innerQuotients (q : Quotient) : Nat := q.num.quotientCount + q.den.quotientCount

theorem quotientCount_of_sides? {e a b : Expr} (h : e.sides? .divide = some (a, b)) :
    e.quotientCount = 1 + (a.quotientCount + b.quotientCount) := by
  rw [Expr.eq_node_of_sides? h]
  simp only [Expr.quotientCount, Expr.quotientCountAll, Nat.add_zero]

/-- A move takes one bar away and brings none: a product has the quotients of its factors. -/
theorem innerQuotients_lt {q r : Quotient} (turn : flattenTurn q = some r) :
    r.innerQuotients < q.innerQuotients := by
  unfold flattenTurn at turn
  split at turn
  · rename_i a b upper
    cases turn
    have gone := quotientCount_of_sides? upper
    have moved := Expr.quotientCount_times_le b q.den
    simp only [innerQuotients]
    omega
  · rename_i b c _ lower
    cases turn
    have gone := quotientCount_of_sides? lower
    have moved := Expr.quotientCount_times_le q.num c
    simp only [innerQuotients]
    omega
  · cases turn

theorem flat_of_stopped {q : Quotient} (stopped : flattenTurn q = none) :
    q.num.sides? .divide = none ∧ q.den.sides? .divide = none := by
  unfold flattenTurn at stopped
  split at stopped
  · cases stopped
  · cases stopped
  · rename_i upper lower
    exact ⟨upper, lower⟩

/-- The moves end, after no more than there are quotients. -/
theorem flatten_endsIn (n d : Expr) :
    ∃ turns ≤ innerQuotients ⟨n, d⟩, EndsIn flattenTurn turns ⟨n, d⟩ (flatten n d) := by
  fun_induction flatten n d with
  | case1 a b d ih =>
    obtain ⟨turns, bound, rest⟩ := ih
    have first : flattenTurn ⟨.node .divide [a, b], d⟩ = some ⟨a, b.times d⟩ := rfl
    exact ⟨turns + 1, bound.trans_lt (innerQuotients_lt first), .next first rest⟩
  | case2 n b c whole ih =>
    obtain ⟨turns, bound, rest⟩ := ih
    have sides : (Expr.node .divide [b, c]).sides? .divide = some (b, c) := rfl
    have first : flattenTurn ⟨n, .node .divide [b, c]⟩ = some ⟨n.times c, b⟩ := by
      simp [flattenTurn, Expr.sides?_eq_none whole, sides]
    exact ⟨turns + 1, bound.trans_lt (innerQuotients_lt first), .next first rest⟩
  | case3 n d upper lower =>
    refine ⟨0, Nat.zero_le _, .stop ?_⟩
    simp [flattenTurn, Expr.sides?_eq_none upper, Expr.sides?_eq_none lower]

end Quotient

namespace Reading

variable {K : Type*} [Field K] [CharZero K] {R : Reading K}

/-- Wherever a tree or a quotient has a value, what is left of it after cancellation has the same
one; and the moves that flatten a quotient end, with neither side a quotient. -/
theorem reduceQuotients_value (law : R.LawfulUnit) :
    (∀ e, R.Defined e →
      R.Defined (reduceQuotients e).expr ∧ R.val (reduceQuotients e).expr = R.val e) ∧
    (∀ n d, R.Defined n → R.Defined d → R.val d ≠ 0 →
      R.Defined (reduceQuotient n d).expr ∧
        R.val (reduceQuotient n d).expr = R.val n / R.val d) ∧
    ∀ n d, ∃ turns ≤ Quotient.innerQuotients ⟨n, d⟩,
      EndsIn Quotient.flattenTurn turns ⟨n, d⟩ (Quotient.flatten n d) ∧
        (Quotient.flatten n d).num.sides? .divide = none ∧
        (Quotient.flatten n d).den.sides? .divide = none := by
  refine ⟨reduceQuotients_keeps law, fun n d hn hd nonzero => ?_, fun n d => ?_⟩
  · obtain ⟨defined, value⟩ := reduceQuotient_keeps law n d ((defined_div n d).mpr ⟨hn, hd, nonzero⟩)
    exact ⟨defined, value.trans (val_div n d)⟩
  · obtain ⟨turns, bound, run⟩ := Quotient.flatten_endsIn n d
    exact ⟨turns, bound, run, Quotient.flat_of_stopped run.stopped⟩

/-- The quotient `(i * x^3) / (x / ln(x))` over complex numbers is `i * x^2 * ln(x)`. -/
theorem reduceQuotients_value_of_inner_quotient :
    let R : Reading ℂ := ⟨fun _ => 2, some Complex.I, fun _ vs => vs.head?, fun _ _ => none⟩
    let x : Expr := .ident "x"
    let top : Expr := .mul (.complex ⟨.zero, .one⟩) (.pow x (.ofInt 3))
    let bottom : Expr := .div x (.call .ln [x])
    let reduced : Expr := .product [.complex ⟨.zero, .one⟩, .pow x (.ofInt 2), .call .ln [x]]
    R.LawfulUnit ∧ R.Defined top ∧ R.Defined bottom ∧ R.val bottom ≠ 0 ∧
      R.val reduced = R.val (.div top bottom) ∧ R.val reduced = R.val top / R.val bottom ∧
      ∃ turns ≤ 1, EndsIn Quotient.flattenTurn turns ⟨top, bottom⟩ ⟨top.times (.call .ln [x]), x⟩ := by
  intro R x top bottom reduced
  have law : R.LawfulUnit := fun i found => by
    cases found
    exact Complex.I_mul_I
  have upper : R.Defined top := by
    refine (defined_mul _ _).mpr ⟨⟨rfl, rfl, rfl⟩, (defined_pow _ _).mpr ⟨trivial, rfl, 3, ?_, ?_⟩⟩
    · simp
    · exact fun _ => by norm_num
  have lower : R.Defined bottom ∧ R.val bottom ≠ 0 := by
    simp [R, bottom, x]
  have whole : R.Defined (.div top bottom) := (defined_div _ _).mpr ⟨upper, lower⟩
  have all : (reduceQuotients (.div top bottom)).expr = reduced := by decide +kernel
  have sides : (reduceQuotient top bottom).expr = reduced := by decide +kernel
  have flat : Quotient.flatten top bottom = ⟨top.times (.call .ln [x]), x⟩ := by decide +kernel
  obtain ⟨keeps, divides, ends⟩ := reduceQuotients_value law
  obtain ⟨turns, bound, run, -, -⟩ := ends top bottom
  exact ⟨law, upper, lower.1, lower.2, all ▸ (keeps _ whole).2,
    sides ▸ (divides top bottom upper lower.1 lower.2).2, turns, bound, flat ▸ run⟩

end Reading

end SymbolicAlgebra
