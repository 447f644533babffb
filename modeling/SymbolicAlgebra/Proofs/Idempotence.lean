import SymbolicAlgebra.Proofs.Evaluation
import SymbolicAlgebra.Proofs.RestoredDifferences

/-! A normal form is its own normal form if the rounds end in a tree that no rule applies to. It
need not be where the rounds settle only because rules undo each other within a round. -/
namespace SymbolicAlgebra

open SymbolicAlgebra.Expr

/-! ## Runs on fixed trees -/

/-- A run settles if the next round leaves alone the tree that it ends in after some rounds. -/
theorem settlesWithin_of_insertion {limit : Nat} {e : Expr} (rounds : Nat) (below : rounds < limit)
    (fixed : insertionRound closedByInsertion ((insertionRound closedByInsertion)^[rounds] e) =
      (insertionRound closedByInsertion)^[rounds] e) :
    SettlesWithin normalFormClosed limit e := by
  induction limit generalizing e rounds with
  | zero => exact absurd below (Nat.not_lt_zero _)
  | succ limit ih =>
    rw [SettlesWithin, normalFormClosed_eq, round_eq_insertionRound]
    cases rounds with
    | zero => exact .inl fixed
    | succ rounds =>
      refine .inr ?_
      have later := ih (e := insertionRound closedByInsertion e) rounds
        (Nat.lt_of_succ_lt_succ below) fixed
      rwa [normalFormClosed_eq] at later

theorem normalize_eq : normalize = normalizeByInsertion closedByInsertion {} := by
  funext e
  rw [normalize, normalizeWithin_eq]

/-- Irreducibility of a fixed tree, by rules that insert operands in order. -/
theorem irreducible_iff_insertion (e : Expr) : e.Irreducible normalFormClosed ↔
    e.AllParts fun part =>
      ∀ rule ∈ [differenceToSum, flattenNode, normalizeCall, expandPower maxDistributedTerms,
        distributeLoneSumNode, collectNode, trimNode, flattenNode, insertOperandsNode,
        reduceQuotientsNode, reduceFactoredNode closedByInsertion],
      (rule part).changed = false ∧
        (everywhere insertOperandsNode (rule part).expr).expr = part := by
  rw [← orderOperandsNode_eq, ← normalFormClosed_eq]
  rfl

/-! ## Runs that end in an irreducible tree -/

section Irreducible

variable {simplify : Expr → Expr} {s : Expr}

/-- A round starts by flattening, so a tree and its flat form come to the same. -/
theorem round_flattened {e : Expr} (sums : toSums e = .same e)
    (still : toSums e.flattened = .same e.flattened) :
    round simplify e.flattened = round simplify e := by
  have flat : flatten e.flattened = .same e.flattened := flatten_of_flat (flatten_flat e)
  have once : (flatten e).expr = e.flattened := rfl
  simp only [round, passes, List.foldl_cons, List.foldl_nil, Step.same, sums, still, flat, once]

theorem round_eq_self (h : s.Irreducible simplify) : round simplify s = s := by
  have same := h.sorted_eq
  rw [← same] at h
  rw [round_of_sorted h (same ▸ h.numbers), same]

/-- One round leads back to an irreducible tree of which the differences were restored. -/
theorem round_summed_restored (h : s.Irreducible simplify) (noFloats : s.AllParts HasNoFloat) :
    round simplify s.restored.summed = s := by
  obtain ⟨same, first⟩ := sorted_resummed h noFloats
  rw [← same] at h
  rw [← round_flattened (toSums_summed _) (toSums_of_sorted h)]
  exact (round_of_sorted h first).trans same

theorem normalizeUsing_restored (options : RoundLimits) (rounds : options.limit s.restored.size ≠ 0)
    (h : s.Irreducible simplify) (noFloats : s.AllParts HasNoFloat) :
    normalizeUsing simplify options s.restored = .same s.restored := by
  have settled : settle simplify (options.limit s.restored.size) s.restored.summed = s :=
    settle_of_round (round_summed_restored h noFloats) (round_eq_self h) rounds
  show Step.mk (settle simplify _ s.restored.summed).restored
    ((settle simplify _ s.restored.summed).restored != s.restored) = _
  rw [settled, bne_self_eq_false]
  rfl

/-- The tree that the rounds of the run for the normal form end in. -/
def settledForm (e : Expr) : Expr :=
  settle normalFormClosed (RoundLimits.limit {} e.size) (toSums e).expr

/-- A normal form is its own normal form if the rounds ended in a tree to no node of which a rule
applies, but for the order of the operands. -/
theorem normalize_idempotent {e : Expr} (irreducible : (settledForm e).Irreducible normalFormClosed)
    (noFloats : (settledForm e).AllParts HasNoFloat) :
    normalize (normalForm e) = .same (normalForm e) := by
  refine normalizeUsing_restored {} ?_ irreducible noFloats
  exact Nat.ne_of_gt (Nat.lt_of_lt_of_le (by decide : 0 < 32) (Nat.le_max_left _ _))

def difference : Expr :=
  .sub (.mul (.ident "x") (.ident "x")) (.add (.ident "y") (.mul (.ofInt 3) (.ident "y")))

/-- `x * x - (y + 3 * y)` becomes `x ^ 2 - 4 * y`, which stays. -/
theorem normalize_idempotent_difference :
    (settledForm difference).Irreducible normalFormClosed ∧
      (settledForm difference).AllParts HasNoFloat ∧
      normalize (normalForm difference) = .same (normalForm difference) := by
  have irreducible : (settledForm difference).Irreducible normalFormClosed := by
    rw [irreducible_iff_insertion, settledForm, settle_eq_insertionSettle, normalFormClosed_eq]
    decide +kernel
  have noFloats : (settledForm difference).AllParts HasNoFloat := by
    rw [settledForm, settle_eq_insertionSettle, normalFormClosed_eq]
    decide +kernel
  exact ⟨irreducible, noFloats, normalize_idempotent irreducible noFloats⟩

end Irreducible

/-! ## Two phases of one tree -/

/-- A quotient node with a numerator only. It counts as negative if that is, but its sign is not
stripped from the numerator. -/
def loneQuotient (x : Expr) : Expr := .node .divide [x]

def minus (x : Expr) : Expr := .mul (.ofInt (-1)) x

def phase (x inner outer : Expr) : Expr :=
  .apply (.other "g") (.div
    (minus (.add x (.node .multiply [.ofInt (-1), .ofInt (-1), .apply (.arcCircular .sin) inner])))
    (.mul (.ident "a") (.apply (.arcCircular .tan) outer)))

/-- Two trees that a round turns into each other, side by side: the round leaves the pair alone. -/
def phases : Expr :=
  .node .bitAnd
    [phase (.ident "x") (minus (loneQuotient (minus (.ident "a"))))
        (minus (loneQuotient (.ofInt (-2)))),
      phase (minus (.ident "x")) (loneQuotient (minus (.ident "a"))) (loneQuotient (.ofInt (-2)))]

/-- Restoring the differences loses one of the factors `-1` in front of `asin`, which puts the two
phases out of step: the normal form has a normal form of its own. -/
theorem normalize_not_idempotent :
    Settles phases ∧ Settles (normalForm phases) ∧
      normalize (normalForm phases) ≠ .same (normalForm phases) := by
  rw [normalForm, normalize_eq]
  refine ⟨settlesWithin_of_insertion 0 (by decide) (by decide +kernel), ?_, by decide +kernel⟩
  exact settlesWithin_of_insertion 3 (by decide +kernel) (by decide +kernel)

end SymbolicAlgebra
