import SymbolicAlgebra.Proofs.LikeFactors
import SymbolicAlgebra.Proofs.Powers
import SymbolicAlgebra.Proofs.SumForm
import SymbolicAlgebra.Rule.Arithmetic

/-! Arithmetic at every node keeps values. -/
namespace SymbolicAlgebra

namespace Reading

variable {K : Type*} [Field K] [CharZero K] {R : Reading K}

theorem simplifyDifference_keeps (a b : Expr) : R.Keeps (.sub a b) (simplifyDifference a b).expr := by
  intro h
  obtain ⟨ha, hb⟩ := (defined_sub a b).mp h
  unfold simplifyDifference
  split
  · rename_i x y
    obtain ⟨r, rfl⟩ := Numeral.exists_exact ha
    obtain ⟨s, rfl⟩ := Numeral.exists_exact hb
    exact ⟨rfl, by simp [Step.new]⟩
  · dsimp only
    split
    · rename_i notBoth z w left right
      simp only [Option.ite_none_right_eq_some] at left right
      obtain ⟨leftKind, left⟩ := left
      obtain ⟨rightKind, right⟩ := right
      obtain ⟨exactLeft, valueLeft⟩ := complex?_spec ha left
      obtain ⟨exactRight, valueRight⟩ := complex?_spec hb right
      -- two numerals were dealt with before, so there is an imaginary unit
      have unit : R.unit?.isSome := by
        by_cases complex : a.isComplex
        · exact unit_of_isComplex ha complex
        · refine unit_of_isComplex hb ?_
          cases a <;> cases b <;> simp_all [Expr.isNumeralFactor, Expr.isNumber, Expr.isComplex]
      obtain ⟨exactly, value⟩ := ComplexNumeral.sub_spec (i := R.imaginary) exactLeft exactRight
      obtain ⟨r, s, total⟩ := ComplexNumeral.exists_exact exactly
      rw [val_sub, ← valueLeft, ← valueRight, ← value, total]
      split
      · rename_i real
        have zero : s = 0 := by simpa [ComplexNumeral.isReal] using real
        exact ⟨rfl, by simp [Step.new, zero]⟩
      · exact ⟨⟨unit, rfl, rfl⟩, rfl⟩
    · exact ⟨h, rfl⟩

theorem simplifyQuotient_keeps (law : R.LawfulUnit) (a b : Expr) :
    R.Keeps (.div a b) (simplifyQuotient a b).expr := by
  unfold simplifyQuotient
  split
  · rename_i found
    exact constantQuotient?_keeps law found
  · exact Keeps.refl _

theorem collectNode_keeps (only : R.OnlyArithmetic) (law : R.LawfulUnit) (laws : R.CollectionLaws)
    (e : Expr) : R.Keeps e (collectNode e).expr := by
  unfold collectNode
  split
  · exact collectSum_keeps laws _
  · exact collectProduct_keeps law laws _
  · exact simplifyPower_keeps law laws _ _
  · exact Keeps.refl _
  · exact simplifyDifference_keeps _ _
  · exact Keeps.refl _
  · exact simplifyQuotient_keeps law _ _
  · exact Keeps.refl _
  · rename_i op xs _ _ _ _ _ _ _ _
    intro h
    cases op with
    | modulus | bitAnd | bitOr | bitXor | leftShift | rightShift =>
      exact absurd h (only.not_defined (by decide))
    | _ => simp_all
  · exact Keeps.refl _

theorem collectLike_keeps (only : R.OnlyArithmetic) (law : R.LawfulUnit) (laws : R.CollectionLaws)
    (e : Expr) : R.Keeps e (collectLike e).expr :=
  everywhere_keeps (collectNode_keeps only law laws) e

end Reading

end SymbolicAlgebra
