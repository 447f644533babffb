import SymbolicAlgebra.Proofs.Multiples
import SymbolicAlgebra.Proofs.Parts

/-! Taking the coefficient off a term and putting one in front of it undo each other. -/
namespace SymbolicAlgebra

namespace Expr

/-- The divisor of a quotient has a coefficient to divide by. -/
def HasDivisor : Expr → Prop
  | .node .divide [_, d] => d.asMultiple.1.isZero = false ∧ d.asMultiple.1.isNaN = false
  | _ => True

/-- The numerator of a quotient has a coefficient to be divided. -/
def HasDividend : Expr → Prop
  | .node .divide [n, _] => n.asMultiple.1.isNaN = false
  | _ => True

instance : DecidablePred HasDivisor := fun e => by
  unfold HasDivisor
  split <;> infer_instance

instance : DecidablePred HasDividend := fun e => by
  unfold HasDividend
  split <;> infer_instance

/-- The coefficients of all quotients are divided out. -/
def DividesOut (e : Expr) : Prop := e.AllParts HasDivisor ∧ e.AllParts HasDividend

variable {n d e : Expr} {factors : List Expr}

theorem DividesOut.sides (h : (node .divide [n, d]).DividesOut) : n.DividesOut ∧ d.DividesOut :=
  ⟨⟨h.1.operands n (by simp), h.2.operands n (by simp)⟩,
    ⟨h.1.operands d (by simp), h.2.operands d (by simp)⟩⟩

theorem DividesOut.asMultiple (h : (node .divide [n, d]).DividesOut) :
    (node .divide [n, d]).asMultiple =
      (n.asMultiple.1.div d.asMultiple.1,
        if d.asMultiple.2.isOne then n.asMultiple.2 else div n.asMultiple.2 d.asMultiple.2) := by
  obtain ⟨zero, below⟩ : d.asMultiple.1.isZero = false ∧ d.asMultiple.1.isNaN = false := h.1.here
  have above : n.asMultiple.1.isNaN = false := h.2.here
  rw [Expr.asMultiple, quotientMultiple, if_neg]
  simp [zero, below, above]

/-! ## Terms without a coefficient -/

theorem sizeAll_filter_le (p : Expr → Bool) (xs : List Expr) :
    sizeAll (xs.filter p) ≤ sizeAll xs := by
  have parted := sizeAll_partition p xs
  omega

theorem size_node_divide : (node .divide [n, d]).size = 1 + (n.size + d.size) := by
  simp [size, sizeAll]

theorem size_asMultiple_le (h : e.DividesOut) : e.asMultiple.2.size ≤ e.size := by
  fun_induction asMultiple e with
  | case1 factors =>
    calc (product (factors.filter fun x => !x.isNumber)).size
      _ ≤ 1 + sizeAll (factors.filter fun x => !x.isNumber) := size_product_le _
      _ ≤ 1 + sizeAll factors := Nat.add_le_add_left (sizeAll_filter_le _ factors) 1
  | case2 n d ihn ihd =>
    have top := ihn h.sides.1
    have bottom := ihd h.sides.2
    have split := h.asMultiple
    rw [asMultiple] at split
    rw [split, size_node_divide]
    dsimp only
    split
    · omega
    · rw [div, size_node_divide]
      omega
  | case3 => exact Nat.le_refl 1
  | case4 => exact Nat.le_refl _

/-- A product that is its own rest has no numeral among its factors. -/
theorem filter_eq_of_rest_eq
    (rest : product (factors.filter fun x => !x.isNumber) = node .multiply factors) :
    (factors.filter fun x => !x.isNumber) = factors := by
  have smaller := sizeAll_filter_le (fun x => !x.isNumber) factors
  generalize factors.filter (fun x => !x.isNumber) = kept at rest smaller
  match kept with
  | [] => cases rest
  | [x] =>
    rw [product] at rest
    simp only [rest, sizeAll, size] at smaller
    omega
  | x :: y :: zs =>
    cases rest
    rfl

theorem numerals_of_filter_eq (rest : (factors.filter fun x => !x.isNumber) = factors) :
    factors.filterMap number? = [] := by
  refine List.filterMap_eq_nil_iff.mpr fun x member => ?_
  have other := List.filter_eq_self.mp rest x member
  cases x with
  | number v => cases other
  | complex _ | ident _ | call _ _ | node _ _ => rfl

/-- The sides of a quotient that is its own rest are their own rests. -/
theorem sides_of_rest_eq (h : (node .divide [n, d]).DividesOut)
    (rest : (node .divide [n, d]).asMultiple.2 = node .divide [n, d]) :
    n.asMultiple.2 = n ∧ d.asMultiple.2 = d ∧ d.isOne = false := by
  rw [h.asMultiple] at rest
  dsimp only at rest
  split at rest
  -- Over one, the rest would be that of the numerator, which is smaller than the quotient.
  · have top := size_asMultiple_le h.sides.1
    rw [rest, size_node_divide] at top
    omega
  · rename_i other
    simp only [div, node.injEq, List.cons.injEq, and_true, true_and] at rest
    obtain ⟨top, bottom⟩ := rest
    rw [bottom, Bool.not_eq_true] at other
    exact ⟨top, bottom, other⟩

/-- A term that is its own rest has the coefficient one. -/
theorem coefficient_of_rest_eq (h : e.DividesOut) (rest : e.asMultiple.2 = e) :
    e.asMultiple.1 = .one := by
  fun_induction asMultiple e with
  | case1 factors =>
    rw [numeralProduct, numerals_of_filter_eq (filter_eq_of_rest_eq rest)]
    rfl
  | case2 n d ihn ihd =>
    have split := h.asMultiple
    rw [asMultiple] at split
    obtain ⟨top, bottom, -⟩ := sides_of_rest_eq h (by rw [asMultiple]; exact rest)
    rw [split, ihn h.sides.1 top, ihd h.sides.2 bottom]
    exact (Numeral.div_exact one_ne_zero).trans (congrArg Numeral.exact (div_one 1))
  | case3 x =>
    cases rest
    rfl
  | case4 => rfl

theorem asMultiple_of_rest_eq (h : e.DividesOut) (rest : e.asMultiple.2 = e) :
    e.asMultiple = (.one, e) := Prod.ext (coefficient_of_rest_eq h rest) rest

/-! ## Coefficients put in front -/

/-- A coefficient of a quotient is that of its numerator. -/
theorem asMultiple_div {c : Rat} {upper lower n d : Expr} {b : Rat} (nonzero : b ≠ 0)
    (above : upper.asMultiple = (.exact c, n)) (below : lower.asMultiple = (.exact b, d)) :
    (div upper lower).asMultiple = (.exact (c / b), if d.isOne then n else div n d) := by
  have whole : (Numeral.exact b).isZero = false := by simp [Numeral.isZero, nonzero]
  rw [div, asMultiple, above, below, quotientMultiple, if_neg (by simp [whole]),
    Numeral.div_exact nonzero]

theorem asMultiple_product_cons {c : Rat} (nonempty : factors ≠ [])
    (rest : (factors.filter fun x => !x.isNumber) = factors) :
    (product (number (.exact c) :: factors)).asMultiple = (.exact c, product factors) := by
  obtain ⟨x, xs, rfl⟩ := List.exists_cons_of_ne_nil nonempty
  have numerals : (number (.exact c) :: x :: xs).filterMap number? = [.exact c] := by
    rw [List.filterMap_cons, numerals_of_filter_eq rest]
    rfl
  have coefficient : Numeral.one.mul (.exact c) = .exact c := by
    rw [Numeral.one, Numeral.ofInt, Numeral.mul_exact, Int.cast_one, one_mul]
  have whole : product (number (.exact c) :: x :: xs) =
      node .multiply (number (.exact c) :: x :: xs) := rfl
  rw [whole, asMultiple, numeralProduct, numerals, List.filter_cons_of_neg (by simp [isNumber]),
    rest, List.foldl_cons, List.foldl_nil, coefficient]

/-- The coefficient of a multiple is the numeral in front. -/
theorem asMultiple_scaleWhole {c : Rat} (nonzero : c ≠ 0) (h : e.DividesOut)
    (rest : e.asMultiple.2 = e) : (scaleWhole (.exact c) e).asMultiple = (.exact c, e) := by
  have plain := asMultiple_of_rest_eq h rest
  have notZero : (Numeral.exact c).isZero = false := by simp [Numeral.isZero, nonzero]
  fun_induction scaleWhole (.exact c) e with
  | case1 _ _ zero => cases notZero.symm.trans zero
  | case2 n d _ one =>
    rw [(Numeral.isOne_exact c).mp one]
    exact plain
  | case3 n d _ _ ih =>
    obtain ⟨top, bottom, other⟩ := sides_of_rest_eq h rest
    have upper := ih h.sides.1 top (asMultiple_of_rest_eq h.sides.1 top)
    have lower := asMultiple_of_rest_eq h.sides.2 bottom
    rw [asMultiple_div one_ne_zero upper lower, other, div_one]
    rfl
  | case4 _ _ zero => cases notZero.symm.trans zero
  | case5 _ _ _ one =>
    rw [(Numeral.isOne_exact c).mp one]
    exact plain
  | case6 other _ _ _ one =>
    cases other with
    | number x =>
      rw [← rest]
      rfl
    | complex _ | ident _ | call _ _ | node _ _ => cases one
  | case7 _ _ factors =>
    have filtered := filter_eq_of_rest_eq rest
    have nonempty : factors ≠ [] := by
      rintro rfl
      cases rest
    rw [asMultiple_product_cons nonempty filtered]
    exact congrArg _ ((congrArg product filtered).symm.trans rest)
  | case8 _ _ other _ _ another =>
    have notNumber : other.isNumber = false := by
      cases other with
      | number x =>
        cases rest
        exact absurd rfl another
      | complex _ | ident _ | call _ _ | node _ _ => rfl
    exact asMultiple_product_cons (by simp) (by simp [notNumber])

/-- A fraction goes below a bar as its two integers, which are divided again. -/
theorem asMultiple_scale {c : Rat} (nonzero : c ≠ 0) (h : e.DividesOut)
    (rest : e.asMultiple.2 = e) : (scale (.exact c) e).asMultiple = (.exact c, e) := by
  have num : ((c.num : Int) : Rat) ≠ 0 := by simpa using nonzero
  have den : (((c.den : Nat) : Int) : Rat) ≠ 0 := by simp
  have ratio : (c.num : Rat) / ((c.den : Int) : Rat) = c := Rat.num_div_den c
  unfold scale
  split
  · rename_i top bottom fraction
    simp only [Numeral.fraction?, Option.ite_none_left_eq_some, Option.some.injEq,
      Prod.mk.injEq] at fraction
    obtain ⟨-, rfl, rfl⟩ := fraction
    split
    · rename_i upper lower
      obtain ⟨above, below, other⟩ := sides_of_rest_eq h rest
      rw [Numeral.ofInt, Numeral.ofInt,
        asMultiple_div den (asMultiple_scaleWhole num h.sides.1 above)
          (asMultiple_scaleWhole den h.sides.2 below), ratio, other]
      rfl
    · have below : (ofInt c.den).asMultiple = (.exact (c.den : Int), one) := rfl
      rw [Numeral.ofInt, asMultiple_div den (asMultiple_scaleWhole num h rest) below, ratio]
      rfl
  · exact asMultiple_scaleWhole nonzero h rest

end Expr

/-! ## Both ways -/

/-- A term is its coefficient times its rest, and is made of the two again, wherever it has a value.
A coefficient other than zero put in front of a term without one is taken off as it was, if the
coefficients of all quotients in the term can be divided out. -/
theorem asMultiple_scale_inverse {K : Type*} [Field K] [CharZero K] (R : Reading K) :
    (∀ t, R.Keeps t (.mul (.number t.asMultiple.1) t.asMultiple.2) ∧
      R.Keeps t (.scale t.asMultiple.1 t.asMultiple.2)) ∧
    ∀ (c : Rat) (r : Expr), c ≠ 0 → r.asMultiple = (.one, r) → r.AllParts Expr.HasDivisor →
      r.AllParts Expr.HasDividend → (Expr.scale (.exact c) r).asMultiple = (.exact c, r) := by
  constructor
  · intro t
    constructor
    · intro h
      obtain ⟨c, coefficient, defined, value⟩ := Reading.asMultiple_spec h
      rw [coefficient, Reading.defined_mul, Reading.val_mul, Reading.val_exact]
      exact ⟨⟨rfl, defined⟩, value⟩
    · intro h
      obtain ⟨c, coefficient, defined, value⟩ := Reading.asMultiple_spec h
      rw [coefficient, ← value]
      exact Reading.scale_spec c defined
  · intro c r nonzero plain divisors dividends
    exact Expr.asMultiple_scale nonzero ⟨divisors, dividends⟩ (congrArg Prod.snd plain)

/-- Three quarters in front of a quotient of a quotient go above and below its bar. -/
theorem asMultiple_scale_inverse_of_quotients :
    let r : Expr := .div (.div (.ident "x") (.ident "y")) (.mul (.ident "z") (.ident "w"))
    mkRat 3 4 ≠ 0 ∧ r.asMultiple = (.one, r) ∧ r.AllParts Expr.HasDivisor ∧
      r.AllParts Expr.HasDividend ∧
      (Expr.scale (.exact (mkRat 3 4)) r).asMultiple = (.exact (mkRat 3 4), r) := by
  intro r
  have nonzero : mkRat 3 4 ≠ 0 := by decide
  have plain : r.asMultiple = (.one, r) := by decide +kernel
  have divisors : r.AllParts Expr.HasDivisor := by decide +kernel
  have dividends : r.AllParts Expr.HasDividend := by decide +kernel
  exact ⟨nonzero, plain, divisors, dividends,
    (asMultiple_scale_inverse (Reading.ofAssignment fun _ => (1 : Rat))).2 _ r nonzero plain
      divisors dividends⟩

/-- A quotient with an undefined factor in its numerator is kept whole with any numeral that is put
in front of it: the coefficient two does not come off again. -/
theorem asMultiple_scale_of_undefined_numerator :
    let r : Expr := .div (.mul .nan (.ident "x")) (.ident "y")
    r.asMultiple = (.one, r) ∧ r.AllParts Expr.HasDivisor ∧
      (Expr.scale (.ofInt 2) r).asMultiple = (.one, r) ∧
      (Expr.scale (.ofInt 2) r).asMultiple ≠ (.ofInt 2, r) := by
  decide +kernel

end SymbolicAlgebra
