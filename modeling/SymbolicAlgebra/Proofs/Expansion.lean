import SymbolicAlgebra.Proofs.SumForm
import SymbolicAlgebra.Sum.Expansion

/-! Multiplying out keeps values: powers of sums, and products over a sum. -/
namespace SymbolicAlgebra

theorem Expr.eq_of_expandedPower? {exponent : Expr} {n : Nat}
    (h : exponent.expandedPower? = some n) : exponent = .number (.exact n) ∧ 2 ≤ n := by
  unfold Expr.expandedPower? at h
  split at h
  · rename_i m found
    obtain ⟨x, number, integer⟩ := Option.bind_eq_some_iff.mp found
    obtain ⟨bounds, rfl⟩ := Option.ite_none_right_eq_some.mp h |>.imp_right Option.some.inj
    cases exponent with
    | number y =>
      cases number
      exact ⟨congrArg _ (Numeral.isExact_of_integer? integer), bounds.1⟩
    | complex _ | ident _ | call _ _ | node _ _ => cases number
  · cases h

theorem eq_append_of_splitAtSum {xs before terms after : List Expr}
    (h : splitAtSum xs = some (before, terms, after)) :
    xs = before ++ .node .add terms :: after := by
  fun_induction splitAtSum xs generalizing before with
  | case1 => cases h
  | case2 ts tail =>
    cases h
    rfl
  | case3 x tail other ih =>
    obtain ⟨⟨first, ts, last⟩, found, same⟩ := Option.map_eq_some_iff.mp h
    cases same
    rw [ih found, List.cons_append]

namespace Reading

variable {K : Type*} [Field K] {R : Reading K}

/-! ## Products of lists of terms -/

theorem times_all_spec {t : Expr} {terms : List Expr} (ht : R.Defined t)
    (h : ∀ o ∈ terms, R.Defined o) :
    (∀ o ∈ terms.map fun o => t.times o, R.Defined o) ∧
      ((terms.map fun o => t.times o).map R.val).sum = R.val t * (terms.map R.val).sum := by
  induction terms with
  | nil => simp
  | cons o os ih =>
    obtain ⟨ho, hos⟩ := List.forall_mem_cons.mp h
    obtain ⟨defined, value⟩ := ih hos
    refine ⟨List.forall_mem_cons.mpr ⟨defined_times ht ho, defined⟩, ?_⟩
    rw [List.map_cons, List.map_cons, List.sum_cons, value, val_times ht ho, List.map_cons,
      List.sum_cons, mul_add]

/-- Every term of one sum times every term of another. -/
theorem cross_spec {expanded terms : List Expr} (he : ∀ t ∈ expanded, R.Defined t)
    (h : ∀ o ∈ terms, R.Defined o) :
    (∀ p ∈ expanded.flatMap fun t => terms.map fun o => t.times o, R.Defined p) ∧
      ((expanded.flatMap fun t => terms.map fun o => t.times o).map R.val).sum =
        (expanded.map R.val).sum * (terms.map R.val).sum := by
  induction expanded with
  | nil => simp
  | cons t ts ih =>
    obtain ⟨ht, hts⟩ := List.forall_mem_cons.mp he
    obtain ⟨defined, value⟩ := ih hts
    obtain ⟨first, product⟩ := times_all_spec ht h
    rw [List.flatMap_cons]
    constructor
    · intro p member
      exact (List.mem_append.mp member).elim (first p) (defined p)
    · rw [List.map_append, List.sum_append, product, value, List.map_cons, List.sum_cons, add_mul]

theorem powerTerms_spec {terms expanded : List Expr} (rounds : Nat)
    (he : ∀ t ∈ expanded, R.Defined t) (h : ∀ o ∈ terms, R.Defined o) :
    (∀ t ∈ powerTerms terms rounds expanded, R.Defined t) ∧
      ((powerTerms terms rounds expanded).map R.val).sum =
        (expanded.map R.val).sum * (terms.map R.val).sum ^ rounds := by
  induction rounds generalizing expanded with
  | zero => simpa [powerTerms] using he
  | succ rounds ih =>
    obtain ⟨defined, value⟩ := cross_spec he h
    obtain ⟨result, total⟩ := ih defined
    refine ⟨result, ?_⟩
    rw [powerTerms, total, value, pow_succ]
    ring

theorem timesAll_spec {xs : List Expr} (h : ∀ x ∈ xs, R.Defined x) :
    R.Defined (timesAll xs) ∧ R.val (timesAll xs) = (xs.map R.val).prod := by
  have fold (acc : Expr) (ys : List Expr) (ha : R.Defined acc) (hy : ∀ y ∈ ys, R.Defined y) :
      R.Defined (ys.foldl Expr.times acc) ∧
        R.val (ys.foldl Expr.times acc) = R.val acc * (ys.map R.val).prod := by
    induction ys generalizing acc with
    | nil => simpa using ha
    | cons y ys ih =>
      obtain ⟨first, rest⟩ := List.forall_mem_cons.mp hy
      obtain ⟨defined, value⟩ := ih (acc.times y) (defined_times ha first) rest
      refine ⟨defined, ?_⟩
      rw [List.foldl_cons, value, val_times ha first, List.map_cons, List.prod_cons, mul_assoc]
  cases xs with
  | nil => simp [timesAll]
  | cons x xs =>
    obtain ⟨first, rest⟩ := List.forall_mem_cons.mp h
    simpa [timesAll] using fold x xs first rest

/-- A product with each addend of a sum in place of the sum. -/
theorem spread_spec {before terms after : List Expr} (hb : ∀ x ∈ before, R.Defined x)
    (ht : ∀ t ∈ terms, R.Defined t) (ha : ∀ x ∈ after, R.Defined x) :
    R.Defined (spread before terms after) ∧
      R.val (spread before terms after) =
        (before.map R.val).prod * (terms.map R.val).sum * (after.map R.val).prod := by
  rw [spread, defined_sum, val_sum]
  induction terms with
  | nil => simp
  | cons t ts ih =>
    obtain ⟨first, rest⟩ := List.forall_mem_cons.mp ht
    obtain ⟨defined, value⟩ := ih rest
    have all : ∀ x ∈ before ++ t :: after, R.Defined x := by
      simp only [List.mem_append, List.mem_cons]
      rintro x (left | rfl | right)
      exacts [hb x left, first, ha x right]
    obtain ⟨here, product⟩ := timesAll_spec all
    refine ⟨List.forall_mem_cons.mpr ⟨here, defined⟩, ?_⟩
    simp only [List.map_cons, List.sum_cons, product, List.map_append, List.prod_append,
      List.prod_cons, value]
    ring

/-! ## The rules -/

theorem expandPower_keeps [CharZero K] (limit : Nat) (e : Expr) :
    R.Keeps e (expandPower limit e).expr := by
  unfold expandPower
  split
  · rename_i terms exponent
    split
    · rename_i n found
      obtain ⟨rfl, atLeast⟩ := Expr.eq_of_expandedPower? found
      split
      · intro h
        have terms := (defined_node_add terms).mp ((defined_node_power _ _).mp h).1
        obtain ⟨defined, value⟩ := powerTerms_spec (n - 1) terms terms
        refine ⟨(defined_sum _).mpr defined, ?_⟩
        simp only [Step.new, val_sum, value, val_node_power, val_node_add, val_exact,
          Rat.cast_natCast, power_natCast]
        rw [← pow_succ', Nat.sub_add_cancel (by omega)]
      · exact Keeps.refl _
    · exact Keeps.refl _
  · exact Keeps.refl _

theorem expandPowers_keeps [CharZero K] (e : Expr) : R.Keeps e (expandPowers e).expr :=
  everywhere_keeps (expandPower_keeps maxDistributedTerms) e

theorem spread_keeps {xs before terms after : List Expr}
    (split : splitAtSum xs = some (before, terms, after)) :
    R.Keeps (.node .multiply xs) (spread before terms after) := by
  intro h
  rw [eq_append_of_splitAtSum split] at h ⊢
  rw [defined_node_multiply] at h
  simp only [List.mem_append, List.mem_cons, or_imp, forall_and, forall_eq,
    defined_node_add] at h
  obtain ⟨defined, value⟩ := spread_spec (R := R) h.1 h.2.1 h.2.2
  refine ⟨defined, ?_⟩
  simp only [value, val_node_multiply, List.map_append, List.map_cons, List.prod_append,
    List.prod_cons, val_node_add]
  ring

theorem distributeLoneSumNode_keeps (e : Expr) : R.Keeps e (distributeLoneSumNode e).expr := by
  unfold distributeLoneSumNode
  split
  · split
    · rename_i split
      split
      · exact spread_keeps split
      · exact Keeps.refl _
    · exact Keeps.refl _
  · exact Keeps.refl _

theorem distributeLoneSum_keeps (e : Expr) : R.Keeps e (distributeLoneSum e).expr :=
  everywhere_keeps distributeLoneSumNode_keeps e

end Reading

end SymbolicAlgebra
