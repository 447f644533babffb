import SymbolicAlgebra.Proofs.Evaluation
import SymbolicAlgebra.Proofs.ExposedQuotients

/-! What becomes of a division by zero. Under sums, multiples and quotients by numerals it outlasts
every round, so that the result has no value either. The undefined quotient that it becomes is no
numeral, though, and a zero factor drops it. -/
namespace SymbolicAlgebra

/-! ## Parts of a round -/

/-- What the passes before collection make of a tree. -/
def beforeCollection (e : Expr) : Expr :=
  (distributeLoneSum (expandPowers (normalizeCalls (flatten (toSums e).expr).expr).expr).expr).expr

/-- What the passes before cancellation make of a tree. -/
def beforeCancellation (e : Expr) : Expr :=
  (orderOperands (flatten (trim (collectLike (beforeCollection e)).expr).expr).expr).expr

theorem round_of_collected (simplify : Expr → Expr) {e c : Expr}
    (collected : (collectLike (beforeCollection e)).expr = c) :
    round simplify e =
      (reduceFactored simplify
        (reduceQuotients (orderOperands (flatten (trim c).expr).expr).expr).expr).expr := by
  subst collected
  rfl

theorem round_nan (simplify : Expr → Expr) : round simplify .nan = .nan := rfl

/-! ## Conditions on a run -/

/-- The first round of a run folds this divisor to the numeral zero, in time for the quotient to be
seen to be undefined. -/
def FoldsToZero (d : Expr) : Prop :=
  (collectLike (beforeCollection (toSums d).expr)).expr = .zero

instance : DecidablePred FoldsToZero := fun _ => inferInstanceAs (Decidable (_ = _))

/-- Wherever a round cancels a base on both sides of a quotient, its exponents are rational. -/
def RoundNetsRationally (simplify : Expr → Expr) (e : Expr) : Prop :=
  Visits reduceQuotientsNode QuotientNetsRationally (beforeCancellation e) ∧
    Visits (reduceFactoredNode simplify) (FactoredNetsRationally simplify) (beforeFactoring e)

instance (simplify : Expr → Expr) : DecidablePred (RoundNetsRationally simplify) := fun _ =>
  inferInstanceAs (Decidable (_ ∧ _))

/-- Wherever a run cancels a base on both sides of a quotient, its exponents are rational. -/
def NetsRationallyWithin (options : RoundLimits) (e : Expr) : Prop :=
  EachRound soundFormClosed (RoundNetsRationally soundFormClosed) (options.limit e.size)
    (toSums e).expr

instance (options : RoundLimits) (e : Expr) : Decidable (NetsRationallyWithin options e) :=
  inferInstanceAs (Decidable (EachRound _ _ _ _))

namespace Reading

variable {K : Type*} [Field K] [CharZero K] {R : Reading K} {sums : Bool} {e : Expr}

/-! ## Rounds -/

/-- One round leaves one division by zero, as exposed as it was. -/
theorem Exposed.round (plain : R.Plain) (laws : R.Lawful) {simplify : Expr → Expr}
    (keeps : ∀ e, R.Keeps e (simplify e))
    (h : R.Exposed (fun d => (collectLike (beforeCollection d)).expr = .zero) False sums e)
    (once : RoundOnce simplify e) (rational : RoundNetsRationally simplify e) :
    R.Exposed (fun _ => False) False sums (round simplify e) := by
  have all {rule : Expr → Step} (a : Expr) : Visits rule (fun _ => True) a :=
    visits_of_forall (fun _ => trivial) a
  have summed : R.Exposed (fun d => (collectLike (distributeLoneSum (expandPowers (normalizeCalls
      (flatten d).expr).expr).expr).expr).expr = .zero) False sums (toSums e).expr :=
    (rearranging_toSums fun _ seen => seen).exposure.everywhere (all e)
      (h.mono (fun _ seen => seen) nofun)
  have flat : R.Exposed (fun d => d.AllParts Expr.IsFlat ∧ (collectLike (distributeLoneSum
      (expandPowers (normalizeCalls d).expr).expr).expr).expr = .zero) False sums _ :=
    (rearranging_flatten laws.only.splices fun d seen =>
      ⟨flatten_flat d, seen⟩).exposure.everywhere (all _) summed
  have called : R.Exposed (fun d =>
      (collectLike (distributeLoneSum (expandPowers d).expr).expr).expr = .zero) False sums _ :=
    (exposure_normalizeCalls plain laws.evaluation (fun _ seen => seen.1) fun _ seen =>
      seen.2).everywhere (all _) flat
  have expanded : R.Exposed (fun d => (collectLike (distributeLoneSum d).expr).expr = .zero)
      False sums _ :=
    (rearranging_expandPowers maxDistributedTerms fun _ seen => seen).exposure.everywhere (all _)
      called
  have distributed : R.Exposed (fun d => (collectLike d).expr = .zero) False sums _ :=
    (rearranging_distributeLoneSum fun _ seen => seen).exposure.everywhere (all _) expanded
  have collected :=
    (exposure_collectLike plain laws fun _ seen => seen).everywhere (all _) distributed
  have trimmed : R.Exposed (fun _ => False) False sums _ :=
    (exposure_trim laws.only fun d seen => by rw [seen]; rfl).everywhere (all _) collected.exposed
  have flatAgain : R.Exposed (fun _ => False) False sums _ :=
    (rearranging_flatten laws.only.splices fun _ seen => seen).exposure.everywhere (all _) trimmed
  have ordered : R.Exposed (fun _ => False) False sums (beforeCancellation e) :=
    (rearranging_orderOperands laws.only fun _ seen => seen).exposure.everywhere (all _) flatAgain
  have cancelled := (exposure_reduceQuotients plain laws.unit).everywhere rational.1 ordered
  exact (exposure_reduceFactored plain laws.unit keeps).everywhere
    (visits_and once rational.2) cancelled

/-- Rounds leave one division by zero, however many there are. -/
theorem Exposed.settle (plain : R.Plain) (laws : R.Lawful) {simplify : Expr → Expr}
    (keeps : ∀ e, R.Keeps e (simplify e)) {limit : Nat}
    (h : R.Exposed (fun d => (collectLike (beforeCollection d)).expr = .zero) False sums e)
    (once : RoundsOnce simplify limit e)
    (rational : EachRound simplify (RoundNetsRationally simplify) limit e) :
    R.Exposed (fun _ => True) False sums (settle simplify limit e) := by
  induction limit generalizing e with
  | zero => exact h.mono (fun _ _ => trivial) id
  | succ limit ih =>
    obtain ⟨sound, soundLater⟩ := once
    obtain ⟨nets, netsLater⟩ := rational
    rw [SymbolicAlgebra.settle]
    split
    · exact h.mono (fun _ _ => trivial) id
    · rename_i moved
      have next := h.round plain laws keeps sound nets
      exact ih (next.mono (fun _ => False.elim) id) (soundLater moved) (netsLater moved)

end Reading

/-! ## Runs -/

/-- A division by zero is not simplified away where nothing absorbs it: the result of a run has no
value, and is no number but the undefined one. -/
theorem normalizeWithin_undefined {K : Type*} [Field K] [CharZero K] (ident : String → K)
    (options : RoundLimits) {e : Expr} (once : FactorsOnce options e)
    (rational : NetsRationallyWithin options e)
    (h : (Reading.ofAssignment ident).Exposed FoldsToZero True true e) :
    ¬(Reading.ofAssignment ident).Defined (normalizeWithin options e).expr ∧
      ∀ x, (normalizeWithin options e).expr = .number x → x = .nan := by
  have plain := Reading.ofAssignment_plain ident
  have laws := Reading.ofAssignment_lawful ident
  have all {rule : Expr → Step} (a : Expr) : Visits rule (fun _ => True) a :=
    visits_of_forall (fun _ => trivial) a
  have summed : (Reading.ofAssignment ident).Exposed
      (fun d => (collectLike (beforeCollection d)).expr = .zero) False true (toSums e).expr :=
    (Reading.rearranging_toSums fun _ seen => seen).exposure.everywhere (all e) h
  have settled := Reading.Exposed.settle plain laws (Reading.soundFormClosed_keeps laws) summed
    once.1 rational
  have restored := Reading.rearranging_toDifferences.exposure.everywhere (all _)
    (settled.mono (fun _ => id) fun _ => trivial)
  have same : (normalizeWithin options e).expr =
      (toDifferences (settle soundFormClosed (options.limit e.size) (toSums e).expr)).expr := by
    rw [once.2]
    rfl
  rw [same]
  exact ⟨restored.not_defined, fun x number => (number ▸ restored).eq_nan_of_number⟩

/-- `1 + 1 / 0`, `2 * (1 / (1 - 1))`, `0 ^ (-1)`, `3 - 0 / (1 - 1)`, `1 / (1 / 2 * 2 - 1)` and
`1 / (1 - 1) / 5` keep their division by zero. -/
theorem normalizeWithin_undefined_of_exposed_divisions :
    let R : Reading ℚ := .ofAssignment fun _ => 0
    let nothing : Expr := .sub .one .one
    let wholes : Expr := .sub (.mul (.div .one (.ofInt 2)) (.ofInt 2)) .one
    let divisions : List Expr :=
      [.add .one (.div .one .zero), .mul (.ofInt 2) (.div .one nothing), .pow .zero (.ofInt (-1)),
        .sub (.ofInt 3) (.div .zero nothing), .div .one wholes,
        .div (.div .one nothing) (.ofInt 5)]
    ∀ e ∈ divisions, FactorsOnce {} e ∧ NetsRationallyWithin {} e ∧
      R.Exposed FoldsToZero True true e ∧ ¬R.Defined (normalizeWithin {} e).expr := by
  intro R nothing wholes divisions
  have once : ∀ e ∈ divisions, FactorsOnce {} e ∧ NetsRationallyWithin {} e := by decide +kernel
  have number (n : ℤ) (nonzero : n ≠ 0) : (Expr.ofInt n).IsNonzeroNumeral :=
    ⟨n, Int.cast_ne_zero.mpr nonzero, rfl⟩
  have noneLeft : R.Defined nothing ∧ R.val nothing = 0 := by simp [nothing]
  have wholesCancel : R.Defined wholes ∧ R.val wholes = 0 := by simp [wholes]
  have one : R.Defined .one ∧ R.val .one ≠ 0 := by simp
  have exposed : ∀ e ∈ divisions, R.Exposed FoldsToZero True true e := by
    simp only [divisions, List.forall_mem_cons]
    refine ⟨?_, ?_, ?_, ?_, ?_, ?_, nofun⟩
    · exact .sum (List.Perm.swap _ _ _) (.divided Reading.defined_zero Reading.val_zero (.inl one))
        (List.forall_mem_cons.mpr ⟨one.1, nofun⟩)
    · exact .multiple (List.Perm.swap _ _ _) (.divided noneLeft.1 noneLeft.2 (.inl one))
        (List.forall_mem_cons.mpr ⟨number 2 (by decide), nofun⟩)
    · exact .reciprocal Reading.defined_zero Reading.val_zero (Reading.defined_ofInt _)
        (Reading.val_ofInt (-1)) (by decide)
    · exact .subtrahend trivial (Reading.defined_ofInt 3)
        (.divided noneLeft.1 noneLeft.2 (.inr (by decide +kernel)))
    · exact .divided wholesCancel.1 wholesCancel.2 (.inl one)
    · exact .quotient (.divided noneLeft.1 noneLeft.2 (.inl one)) (number 5 (by decide)).isScalar
  exact fun e member => ⟨(once e member).1, (once e member).2, exposed e member,
    (normalizeWithin_undefined _ {} (once e member).1 (once e member).2 (exposed e member)).1⟩

/-- `1 / 0 * 0` and `0 / 0 ^ (-1)` become zero, `(1 / 0) ^ 0` and `1 ^ (1 / 0)` one, though none of
them has a value: the undefined quotient is not the numeral that the rules for zero and one look out
for. In `1 / 0 * (2 + 1 / (-1))`, which becomes zero as well, the multiples of the quotient cancel. -/
theorem division_by_zero_absorbed :
    let R : Reading ℚ := .ofAssignment fun _ => 0
    let divided : Expr := .div .one .zero
    let absorbed : List (Expr × Expr) :=
      [(.mul divided .zero, .zero), (.div .zero (.pow .zero (.ofInt (-1))), .zero),
        (.pow divided .zero, .one), (.pow .one divided, .one),
        (.mul divided (.add (.ofInt 2) (.div .one (.ofInt (-1)))), .zero)]
    ∀ p ∈ absorbed, ¬R.Defined p.1 ∧ (normalizeWithin {} p.1).expr = p.2 ∧ R.Defined p.2 := by
  intro R divided absorbed
  have runs : ∀ p ∈ absorbed, (normalizeWithin {} p.1).expr = p.2 := by
    rw [normalizeWithin_eq]
    decide +kernel
  have undefined : ∀ p ∈ absorbed, ¬R.Defined p.1 ∧ R.Defined p.2 := by
    simp only [absorbed, divided, List.forall_mem_cons]
    have noReciprocal : ¬R.Defined (.pow .zero (.ofInt (-1))) := by
      rw [Reading.defined_pow]
      rintro ⟨-, -, n, minusOne, nonneg⟩
      rw [Reading.val_ofInt, Int.cast_inj] at minusOne
      have := nonneg Reading.val_zero
      omega
    simp [noReciprocal]
  exact fun p member => ⟨(undefined p member).1, runs p member, (undefined p member).2⟩

end SymbolicAlgebra
