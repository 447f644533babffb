import SymbolicAlgebra.NormalForm
import SymbolicAlgebra.Proofs.CallRules
import SymbolicAlgebra.Proofs.Collection
import SymbolicAlgebra.Proofs.Expansion
import SymbolicAlgebra.Proofs.FactoredSides
import SymbolicAlgebra.Proofs.Trimming

/-! Normal forms have the value of the expression, after any number of rounds, where factoring is
sound in each of them. -/
namespace SymbolicAlgebra

/-- What the passes before factoring make of an expression. -/
def beforeFactoring (e : Expr) : Expr :=
  (passes id).dropLast.foldl (fun e pass => (pass e).expr) e

theorem round_eq (simplify : Expr → Expr) (e : Expr) :
    round simplify e = (reduceFactored simplify (beforeFactoring e)).expr := rfl

/-- Every quotient that factoring reduces in a round is reduced soundly. -/
def RoundOnce (simplify : Expr → Expr) (e : Expr) : Prop :=
  Visits (reduceFactoredNode simplify) (SidesOnce simplify) (beforeFactoring e)

instance (simplify : Expr → Expr) (e : Expr) : Decidable (RoundOnce simplify e) :=
  inferInstanceAs (Decidable (Visits _ _ _))

/-- Every tree that a round starts from, until one settles, satisfies `P`. -/
def EachRound (simplify : Expr → Expr) (P : Expr → Prop) : Nat → Expr → Prop
  | 0, _ => True
  | limit + 1, e =>
    P e ∧ (round simplify e ≠ e → EachRound simplify P limit (round simplify e))

def decideEachRound (simplify : Expr → Expr) (P : Expr → Prop) [DecidablePred P] :
    (limit : Nat) → (e : Expr) → Decidable (EachRound simplify P limit e)
  | 0, _ => isTrue trivial
  | limit + 1, e =>
    @instDecidableAnd _ _ _ (@instDecidableForall _ _ _
      (decideEachRound simplify P limit (round simplify e)))

instance (simplify : Expr → Expr) (P : Expr → Prop) [DecidablePred P] (limit : Nat) (e : Expr) :
    Decidable (EachRound simplify P limit e) := decideEachRound simplify P limit e

/-- Every round until the tree settles is sound. -/
def RoundsOnce (simplify : Expr → Expr) (limit : Nat) (e : Expr) : Prop :=
  EachRound simplify (RoundOnce simplify) limit e

instance (simplify : Expr → Expr) (limit : Nat) (e : Expr) :
    Decidable (RoundsOnce simplify limit e) := inferInstanceAs (Decidable (EachRound _ _ _ _))

/-- Every round of a run is sound. -/
def RunsOnce (simplify : Expr → Expr) (options : RoundLimits) (e : Expr) : Prop :=
  RoundsOnce simplify (options.limit e.size) (toSums e).expr

instance (simplify : Expr → Expr) (options : RoundLimits) (e : Expr) :
    Decidable (RunsOnce simplify options e) := inferInstanceAs (Decidable (RoundsOnce _ _ _))

/-- The simplest form of an expression without identifiers, where the run to it is sound. -/
def soundFormClosed (e : Expr) : Expr := if RunsOnce id {} e then normalFormClosed e else e

/-- Every factoring in the run is sound: no exponent leaves the word, no shared factor is pulled out
of a sum with a term that has two powers of one of its bases, and none of the coefficients that are
simplified on the way comes from a run where that happens. -/
def FactorsOnce (options : RoundLimits) (e : Expr) : Prop :=
  RunsOnce soundFormClosed options e ∧
    normalizeWithin options e = normalizeUsing soundFormClosed options e

instance (options : RoundLimits) (e : Expr) : Decidable (FactorsOnce options e) :=
  inferInstanceAs (Decidable (_ ∧ _))

namespace Reading

variable {K : Type*} [Field K] [CharZero K] {R : Reading K}

/-- The laws that the passes rely on. -/
structure Lawful (R : Reading K) : Prop where
  only : R.OnlyArithmetic
  unit : R.LawfulUnit
  collection : R.CollectionLaws
  evaluation : R.EvaluationLaws

omit [CharZero K] in
theorem ofAssignment_lawful (ident : String → K) : (ofAssignment ident).Lawful where
  only := ofAssignment_onlyArithmetic ident
  unit := ofAssignment_lawfulUnit ident
  collection := ofAssignment_collectionLaws ident
  evaluation := ofAssignment_evaluationLaws ident

theorem beforeFactoring_keeps (laws : R.Lawful) (e : Expr) : R.Keeps e (beforeFactoring e) :=
  (toSums_keeps e).trans <|
  (flatten_keeps laws.only.splices _).trans <|
  (normalizeCalls_keeps laws.evaluation _).trans <|
  (expandPowers_keeps _).trans <|
  (distributeLoneSum_keeps _).trans <|
  (collectLike_keeps laws.only laws.unit laws.collection _).trans <|
  (trim_keeps laws.only _).trans <|
  (flatten_keeps laws.only.splices _).trans <|
  (orderOperands_keeps laws.only _).trans <|
  reduceQuotients_keeps laws.unit _

variable {simplify : Expr → Expr}

theorem round_keeps (laws : R.Lawful) (keeps : ∀ e, R.Keeps e (simplify e)) {e : Expr}
    (once : RoundOnce simplify e) : R.Keeps e (round simplify e) := by
  rw [round_eq]
  exact (beforeFactoring_keeps laws e).trans (reduceFactored_keeps laws.only laws.unit keeps once)

theorem settle_keeps (laws : R.Lawful) (keeps : ∀ e, R.Keeps e (simplify e)) {limit : Nat}
    {e : Expr} (once : RoundsOnce simplify limit e) : R.Keeps e (settle simplify limit e) := by
  induction limit generalizing e with
  | zero => exact Keeps.refl e
  | succ limit ih =>
    obtain ⟨here, later⟩ := once
    rw [settle]
    split
    · exact Keeps.refl e
    · rename_i moved
      exact (round_keeps laws keeps here).trans (ih (later moved))

theorem normalizeUsing_keeps (laws : R.Lawful) (keeps : ∀ e, R.Keeps e (simplify e))
    {options : RoundLimits} {e : Expr} (once : RunsOnce simplify options e) :
    R.Keeps e (normalizeUsing simplify options e).expr :=
  (toSums_keeps e).trans ((settle_keeps laws keeps once).trans (toDifferences_keeps _))

theorem soundFormClosed_keeps (laws : R.Lawful) (e : Expr) : R.Keeps e (soundFormClosed e) := by
  unfold soundFormClosed
  split
  · rename_i once
    exact normalizeUsing_keeps laws Keeps.refl once
  · exact Keeps.refl e

/-- A run has the value of the expression, wherever it has one. -/
theorem normalizeWithin_keeps (laws : R.Lawful) {options : RoundLimits} {e : Expr}
    (once : FactorsOnce options e) : R.Keeps e (normalizeWithin options e).expr := by
  rw [once.2]
  exact normalizeUsing_keeps laws (soundFormClosed_keeps laws) once.1

/-! ## Rational assignments -/

/-- Wherever an expression of rationals has a value, its normal form has the same one, after any
number of rounds. -/
theorem normalizeWithin_value (options : RoundLimits) (ident : String → ℚ) {e : Expr}
    (once : FactorsOnce options e) (h : (ofAssignment ident).Defined e) :
    (ofAssignment ident).Defined (normalizeWithin options e).expr ∧
      (ofAssignment ident).val (normalizeWithin options e).expr = (ofAssignment ident).val e :=
  normalizeWithin_keeps (ofAssignment_lawful ident) once h

/-- The quotient `(x * y + x) / x`. -/
def sharedBase : Expr := .div (.add (.mul (.ident "x") (.ident "y")) (.ident "x")) (.ident "x")

/-- The shared factor of `x * y + x` cancels. -/
theorem normalizeWithin_value_of_shared_base :
    FactorsOnce {} sharedBase ∧ (ofAssignment fun _ => (2 : ℚ)).Defined sharedBase ∧
      (ofAssignment fun _ => (2 : ℚ)).val (normalizeWithin {} sharedBase).expr =
        (ofAssignment fun _ => (2 : ℚ)).val sharedBase := by
  have once : FactorsOnce {} sharedBase := by decide +kernel
  have defined : (ofAssignment fun _ => (2 : ℚ)).Defined sharedBase := by
    simp [sharedBase, ofAssignment]
  exact ⟨once, defined, (normalizeWithin_value {} _ once defined).2⟩

/-- The quotient `(x * (x * y)^2 + x) / x`. -/
def repeatedBase : Expr :=
  .div (.add (.mul (.ident "x") (.pow (.mul (.ident "x") (.ident "y")) (.ofInt 2))) (.ident "x"))
    (.ident "x")

/-- A term with two powers of `x` loses the shared factor `x` from both: what is left is
`x * y^2 + 1` in place of `x^2 * y^2 + 1`. -/
theorem normalizeWithin_value_fails_on_repeated_base :
    (ofAssignment fun name => if name = "x" then (2 : ℚ) else 1).Defined repeatedBase ∧
      (ofAssignment fun name => if name = "x" then (2 : ℚ) else 1).val
          (normalizeWithin {} repeatedBase).expr ≠
        (ofAssignment fun name => if name = "x" then (2 : ℚ) else 1).val repeatedBase := by
  have result : (normalizeWithin {} repeatedBase).expr =
      .add (.mul (.ident "x") (.pow (.ident "y") (.ofInt 2))) .one := by
    decide +kernel
  have square (v : ℚ) : power v ((2 : ℤ) : ℚ) = v ^ 2 := by
    rw [power_intCast, zpow_ofNat]
  have different : ¬("y" = "x") := by decide
  rw [result, repeatedBase]
  constructor
  · simp only [defined_div, defined_add, defined_mul, defined_ident, defined_pow, defined_ofInt,
      val_mul, val_ident, val_ofInt, true_and, and_true]
    exact ⟨⟨2, rfl, fun _ => by norm_num⟩, by norm_num [ofAssignment]⟩
  · simp only [val_div, val_add, val_mul, val_pow, val_ident, val_ofInt, val_one, square]
    norm_num [ofAssignment, different]

end Reading

end SymbolicAlgebra
