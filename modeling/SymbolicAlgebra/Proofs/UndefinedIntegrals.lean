import SymbolicAlgebra.Calculus.Antiderivative
import SymbolicAlgebra.Proofs.Evaluation
import SymbolicAlgebra.Proofs.Parts
import SymbolicAlgebra.Proofs.Rounds
import SymbolicAlgebra.Proofs.UndefinedNumbers

/-! The undefined number in antiderivatives. Alone it is never given for one, and what has a value
holds none; under an operator it is not noticed, nor is the undefined quotient. -/
namespace SymbolicAlgebra

namespace Expr

/-- No undefined number, also not as a part of a complex numeral. -/
def IsNotNaN : Expr → Prop
  | .number x => x ≠ .nan
  | .complex z => z.re ≠ .nan ∧ z.im ≠ .nan
  | _ => True

end Expr

theorem Numeral.ne_nan_of_isExact {x : Numeral} (exact : x.isExact = true) : x ≠ .nan := by
  rintro rfl
  cases exact

/-- Whatever has a value holds no undefined number. -/
theorem Reading.Defined.isNotNaN {K : Type*} [Field K] {R : Reading K} {e : Expr}
    (h : R.Defined e) : e.AllParts Expr.IsNotNaN := by
  induction e with
  | number x => exact Numeral.ne_nan_of_isExact h
  | complex z =>
    obtain ⟨-, re, im⟩ := h
    exact ⟨Numeral.ne_nan_of_isExact re, Numeral.ne_nan_of_isExact im⟩
  | ident name => trivial
  | call f xs ih =>
    obtain ⟨arguments, -⟩ := (defined_call f xs).mp h
    exact Expr.allParts_call.mpr ⟨trivial, fun x member => ih x member (arguments x member)⟩
  | node op xs ih =>
    obtain ⟨operands, -⟩ := (defined_node op xs).mp h
    exact Expr.allParts_node.mpr ⟨trivial, fun x member => ih x member (operands x member)⟩

/-! ## The two attempts at an integral -/

/-- The antiderivative before it is simplified. -/
def unsimplifiedAntiderivative? (options : IntegrationOptions) (x : String) (e : Expr) :
    Option (Expr × Strategy) :=
  rawAntiderivative? options x (normalForm e) <|>
    if normalForm e = e then none else rawAntiderivative? options x e

theorem antiderivative?_of_some {options : IntegrationOptions} {x : String} {e f : Expr}
    {strategy : Strategy} (found : unsimplifiedAntiderivative? options x e = some (f, strategy)) :
    antiderivative? options x e =
      if (normalForm f).isNaN then none else some (normalForm f, strategy) := by
  unfold unsimplifiedAntiderivative? at found
  rw [antiderivative?]
  dsimp only
  rw [found]

/-- Without the variable of integration, the strategies multiply by it. -/
theorem rawAntiderivative?_numeral (options : IntegrationOptions) (x : String) (c : Numeral) :
    rawAntiderivative? options x (.number c) = some ((Expr.number c).times (.ident x), .table) := by
  have deeper : ¬options.maxDepth + 1 ≤ options.maxDepth := by omega
  rw [rawAntiderivative?, integrals, if_neg deeper, integrateTerm]
  · rfl
  all_goals simp

theorem normalForm_of_round_nan {e : Expr}
    (first : round normalFormClosed (toSums e).expr = .nan) : normalForm e = .nan := by
  have rounds : RoundLimits.limit {} e.size ≠ 0 :=
    Nat.ne_of_gt (Nat.lt_of_lt_of_le (by decide) (Nat.le_max_left 32 _))
  have settled := settle_of_round first (round_nan normalFormClosed) rounds
  show (toDifferences (settle _ _ (toSums e).expr)).expr = .nan
  rw [settled]
  rfl

theorem normalForm_nan_times (x : String) : normalForm (Expr.nan.times (.ident x)) = .nan := by
  have before : beforeCollection (toSums (.node .multiply [.nan, .ident x])).expr =
      .node .multiply [.nan, .ident x] := rfl
  have collected : (collectLike (.node .multiply [.nan, .ident x])).expr = .nan := by
    rw [collectLike, everywhere_node]
    rfl
  refine normalForm_of_round_nan (e := .node .multiply [.nan, .ident x]) ?_
  exact round_of_collected normalFormClosed (by rw [before, collected])

/-! ## Results -/

/-- An integrand or an antiderivative that amounts to the undefined number is given up. An
antiderivative that has a value is given, and holds no undefined number. -/
theorem antiderivative?_undefined (options : IntegrationOptions) (x : String) (e : Expr) :
    (normalForm e = .nan → antiderivative? options x e = none) ∧
    ∀ f strategy, unsimplifiedAntiderivative? options x e = some (f, strategy) →
      (normalForm f = .nan → antiderivative? options x e = none) ∧
      ∀ {K : Type*} [Field K] [CharZero K] {R : Reading K}, R.Lawful → FactorsOnce {} f →
        R.Defined f →
          antiderivative? options x e = some (normalForm f, strategy) ∧
            (normalForm f).AllParts Expr.IsNotNaN := by
  constructor
  · intro undefined
    have found : unsimplifiedAntiderivative? options x e =
        some (Expr.nan.times (.ident x), .table) := by
      rw [unsimplifiedAntiderivative?, undefined, Expr.nan, rawAntiderivative?_numeral]
      rfl
    rw [antiderivative?_of_some found, normalForm_nan_times]
    rfl
  · intro f strategy found
    rw [antiderivative?_of_some found]
    refine ⟨fun undefined => by rw [undefined]; rfl, ?_⟩
    intro K _ _ R laws once defined
    have simplified := (Reading.normalizeWithin_keeps laws once defined).1
    exact ⟨if_neg (Bool.eq_false_iff.mp (Reading.isNaN_of_defined simplified)), simplified.isNotNaN⟩

/-- The integral of `x^2` is `x^3 / 3`. -/
theorem antiderivative?_undefined_of_square :
    let square : Expr := .pow (.ident "x") (.ofInt 2)
    let cube : Expr := .div (.pow (.ident "x") (.ofInt 3)) (.ofInt 3)
    unsimplifiedAntiderivative? {} "x" square = some (cube, .table) ∧ FactorsOnce {} cube ∧
      (Reading.ofAssignment fun _ => (2 : ℚ)).Lawful ∧
      (Reading.ofAssignment fun _ => (2 : ℚ)).Defined cube ∧
      antiderivative? {} "x" square = some (normalForm cube, .table) ∧
        (normalForm cube).AllParts Expr.IsNotNaN := by
  intro square cube
  have simple : normalForm square = square := by
    rw [normalForm_eq]
    decide +kernel
  have raw : rawAntiderivative? {} "x" square = some (cube, .table) := by decide +kernel
  have found : unsimplifiedAntiderivative? {} "x" square = some (cube, .table) := by
    rw [unsimplifiedAntiderivative?, simple, raw]
    rfl
  have once : FactorsOnce {} cube := by decide +kernel
  have laws := Reading.ofAssignment_lawful fun _ => (2 : ℚ)
  have defined : (Reading.ofAssignment fun _ => (2 : ℚ)).Defined cube := by
    rw [Reading.defined_div, Reading.val_ofInt]
    exact ⟨(Reading.defined_pow_exact _ 3).mpr ⟨trivial, fun _ => by decide⟩, rfl, by norm_num⟩
  obtain ⟨-, results⟩ := antiderivative?_undefined {} "x" square
  exact ⟨found, once, laws, defined, (results cube .table found).2 laws once defined⟩

/-- The integral of `1 / 0` is given as the undefined quotient. -/
theorem antiderivative?_of_division_by_zero :
    antiderivative? {} "x" (.div .one .zero) = some (undefinedQuotient, .table) ∧
      ¬undefinedQuotient.AllParts Expr.IsNotNaN := by
  have integrand : normalForm (.div .one .zero) = undefinedQuotient := by
    rw [normalForm_eq]
    decide +kernel
  have raw : rawAntiderivative? {} "x" undefinedQuotient =
      some (.mul undefinedQuotient (.ident "x"), .table) := by decide +kernel
  have found : unsimplifiedAntiderivative? {} "x" (.div .one .zero) =
      some (.mul undefinedQuotient (.ident "x"), .table) := by
    rw [unsimplifiedAntiderivative?, integrand, raw]
    rfl
  have result : normalForm (.mul undefinedQuotient (.ident "x")) = undefinedQuotient := by
    rw [normalForm_eq]
    decide +kernel
  refine ⟨?_, fun defined => ?_⟩
  · rw [antiderivative?_of_some found, result]
    rfl
  · exact (Expr.allParts_node.mp defined).2 .nan List.mem_cons_self rfl

end SymbolicAlgebra
