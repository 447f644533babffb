import SymbolicAlgebra.Proofs.SumForm
import SymbolicAlgebra.Rule.OperandOrder
import SymbolicAlgebra.Rule.Trim

/-! Dropping identities and absorbing operands, and putting operands in order, keep values. -/
namespace SymbolicAlgebra

namespace Reading

variable {K : Type*} [Field K] {R : Reading K}

theorem prod_of_any_isZero {xs : List Expr} (h : ∀ x ∈ xs, R.Defined x)
    (absorbed : xs.any Expr.isZero = true) : (xs.map R.val).prod = 0 := by
  obtain ⟨x, member, zero⟩ := List.any_eq_true.mp absorbed
  exact List.prod_eq_zero (List.mem_map.mpr ⟨x, member, val_of_isZero (h x member) zero⟩)

theorem trimProduct_keeps (xs : List Expr) :
    R.Keeps (.node .multiply xs) (trimProduct xs).expr := by
  intro h
  rw [defined_node_multiply] at h
  unfold trimProduct
  split
  · rename_i absorbed
    rw [Bool.and_eq_true] at absorbed
    exact ⟨defined_zero, by simp [Step.new, prod_of_any_isZero h absorbed.2]⟩
  · exact ⟨(defined_product _).mpr (defined_filter h), by simp [rebuilt, prod_drop_ones h]⟩

theorem trimSum_keeps (xs : List Expr) :
    R.Keeps (.node .add xs) (.sum (xs.filter fun x => !x.isZero)) := by
  intro h
  rw [defined_node_add] at h
  refine ⟨(defined_sum _).mpr (defined_filter h), ?_⟩
  rw [val_sum, val_node_add]
  exact sum_filter fun x member dropped => val_of_isZero (h x member) (by simpa using dropped)

theorem trimDifference_keeps (a b : Expr) : R.Keeps (.sub a b) (trimDifference a b).expr := by
  intro h
  obtain ⟨ha, hb⟩ := (defined_sub a b).mp h
  unfold trimDifference
  split
  · rename_i zero
    exact ⟨ha, by simp [Step.new, val_of_isZero hb zero]⟩
  · split
    · rename_i same
      exact ⟨defined_zero, by simp [Step.new, same.1]⟩
    · exact ⟨h, rfl⟩

theorem trimQuotient_keeps (a b : Expr) : R.Keeps (.div a b) (trimQuotient a b).expr := by
  intro h
  obtain ⟨ha, hb, nonzero⟩ := (defined_div a b).mp h
  unfold trimQuotient
  split
  · rename_i zero
    exact absurd (val_of_isZero hb zero) nonzero
  · split
    · exact ⟨h, rfl⟩
    · split
      · rename_i one
        exact ⟨ha, by simp [Step.new, val_of_isOne hb one]⟩
      · split
        · rename_i zero
          exact ⟨defined_zero, by simp [Step.new, val_of_isZero ha zero.1]⟩
        · split
          · rename_i same
            subst same
            exact ⟨defined_one, by simp [Step.new, nonzero]⟩
          · exact ⟨h, rfl⟩

theorem trimPower_keeps [CharZero K] (a b : Expr) : R.Keeps (.pow a b) (trimPower a b).expr := by
  intro h
  obtain ⟨ha, hb, n, exponent, -⟩ := (defined_pow a b).mp h
  unfold trimPower
  split
  · rename_i one
    exact ⟨ha, by simp [Step.new, val_of_isOne hb one]⟩
  · split
    · rename_i zero
      exact ⟨defined_one, by simp [Step.new, val_of_isZero hb zero.1]⟩
    · split
      · rename_i one
        exact ⟨defined_one, by simp [Step.new, val_of_isOne ha one, ← exponent]⟩
      · exact ⟨h, rfl⟩

theorem trimNode_keeps [CharZero K] (only : R.OnlyArithmetic) (e : Expr) :
    R.Keeps e (trimNode e).expr := by
  unfold trimNode
  split
  · exact trimSum_keeps _
  · exact trimProduct_keeps _
  · exact fun h => absurd h (only.not_defined (by decide))
  · exact fun h => absurd h (only.not_defined (by decide))
  · exact fun h => absurd h (only.not_defined (by decide))
  · exact trimDifference_keeps _ _
  · exact trimQuotient_keeps _ _
  · exact trimPower_keeps _ _
  · exact fun h => absurd h (only.not_defined (by decide))
  · exact fun h => absurd h (only.not_defined (by decide))
  · exact Keeps.refl _

theorem trim_keeps [CharZero K] (only : R.OnlyArithmetic) (e : Expr) :
    R.Keeps e (trim e).expr :=
  everywhere_keeps (trimNode_keeps only) e

theorem orderOperandsNode_keeps (only : R.OnlyArithmetic) (e : Expr) :
    R.Keeps e (orderOperandsNode e).expr := by
  unfold orderOperandsNode
  split
  · rename_i op xs
    split
    · rename_i order _
      split
      · exact Keeps.refl _
      · have moved := List.mergeSort_perm xs fun a b => order a b != .gt
        cases op with
        | add => exact add_keeps_of_perm moved
        | multiply => exact multiply_keeps_of_perm moved
        | bitAnd | bitOr | bitXor => exact fun h => absurd h (only.not_defined (by decide))
        | _ => contradiction
    · exact Keeps.refl _
  · exact Keeps.refl _

theorem orderOperands_keeps (only : R.OnlyArithmetic) (e : Expr) :
    R.Keeps e (orderOperands e).expr :=
  everywhere_keeps (orderOperandsNode_keeps only) e

end Reading

end SymbolicAlgebra
