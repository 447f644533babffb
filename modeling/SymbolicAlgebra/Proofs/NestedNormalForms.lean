import SymbolicAlgebra.Proofs.AskingPolynomials
import SymbolicAlgebra.Proofs.FactoringIdentifiers

/-! Normal forms within normal forms. While a tree is brought to its normal form, those of the
coefficients of its polynomials are asked for. They hold no identifier, and for the normal form of a
tree without identifiers no other one is asked for: the recursion goes two levels deep. -/
namespace SymbolicAlgebra

namespace Asking

/-! ## The passes, with normal forms asked for -/

/-- A polynomial in the variable as a sum by descending powers; other trees stay as they are. -/
def byDescendingPowers (unknown : String) (e : Expr) : Asking Expr := do
  let read ← ofExpr? unknown e
  return match read with
    | some p => if p.isZero then e else p.toExpr (symbolicCoefficients id) unknown
    | none => e

/-- A sum in one identifier by descending powers, as differences. -/
def descendingForm (e : Expr) : Asking Expr :=
  match e.identifiers with
  | [name] => do
    let ordered ← byDescendingPowers name e
    return match ordered with
      | .node .add [] => .zero
      | .node .add (t :: ts) => subtractFrom [t] ts
      | ordered => ordered.differenceForm
  | _ => return e.differenceForm

/-- Divides the integer content out of a sum. -/
def factorContent (e : Expr) : Asking Step :=
  match e.sumForm with
  | .node .add terms =>
    match contentAndRest? terms with
    | some (content, rest) => do
      let ordered ← descendingForm (.sum rest)
      return .new (.product [.number content, ordered])
    | none => return .same e
  | _ => return .same e

/-- A sum factored by the first routine that can, where the content is one. -/
def factoredPrimitive (e : Expr) : Expr :=
  let factored? (attempt : Expr → Step) : Option Expr :=
    let result := attempt e
    if result.changed then some result.expr else none
  ([factorSquares, factorQuadraticExactly, factorRationalRoot, factorShared].findSome?
    factored?).getD e

/-- A sum factored by the first routine that can. Only the first one asks for normal forms. -/
def factoredSum (e : Expr) : Asking Expr := do
  let content ← factorContent e
  return if content.changed then content.expr else factoredPrimitive e

/-- One side of a quotient with every sum among its factors factored. -/
def withFactoredSums (side : Expr) : Asking Expr := do
  let factors ← side.factors.mapM fun f =>
    if f.isNode .add then (·.sumForm.factors) <$> factoredSum f else return [f]
  return .product factors.flatten

def reduceFactoredNode : Expr → Asking Step
  | .node .divide [n, d] =>
    if n.isNaN || d.isZero || (!n.holdsSum && !d.holdsSum) then return .same (.div n d)
    else do
      let top ← withFactoredSums n
      let bottom ← withFactoredSums d
      let reduced := reduceSharedBases top bottom
      return if reduced.changed then reduced else .same (.div n d)
  | e => return .same e

mutual

/-- Applies the rule to the children, then to what they leave. -/
def everywhere (rule : Expr → Asking Step) : Expr → Asking Step
  | .node op xs => do
    let below ← everywhereAll rule xs
    let here ← rule (.node op below.1)
    return ⟨here.expr, below.2 || here.changed⟩
  | .call f xs => do
    let below ← everywhereAll rule xs
    let here ← rule (.call f below.1)
    return ⟨here.expr, below.2 || here.changed⟩
  | e => rule e

def everywhereAll (rule : Expr → Asking Step) : List Expr → Asking (List Expr × Bool)
  | [] => return ([], false)
  | x :: xs => do
    let head ← everywhere rule x
    let tail ← everywhereAll rule xs
    return (head.expr :: tail.1, head.changed || tail.2)

end

/-- One round of all passes, of which the last one asks for normal forms. -/
def round (e : Expr) : Asking Expr :=
  Step.expr <$> everywhere reduceFactoredNode (beforeFactoring e)

/-- Rounds until one leaves the tree as it is, at most `limit` of them. -/
def settle : Nat → Expr → Asking Expr
  | 0, e => return e
  | limit + 1, e => do
    let next ← round e
    if next = e then return e else settle limit next

/-- Runs the passes to a fixed point within the limit of `options`. -/
def normalize (options : RoundLimits) (e : Expr) : Asking Step := do
  let settled ← settle (options.limit e.size) (toSums e).expr
  let result := (toDifferences settled).expr
  return ⟨result, result != e⟩

end Asking

/-- The normal form, if those asked for on the way to it, and for them in turn, are at most `depth`
levels with the first. -/
def normalizeNested? : Nat → RoundLimits → Expr → Option Step
  | 0, _, _ => none
  | depth + 1, options, e =>
    (Asking.normalize options e).run? fun t => (normalizeNested? depth {} t).map Step.expr

namespace Asking

/-! ## What they ask for -/

section Passes

variable {answer : Expr → Expr} {S : Set String} {e : Expr}

/-- A tree without identifiers, asked for on behalf of a tree with some. -/
def IsClosedWithin (S : Set String) (t : Expr) : Prop := t.NamesIn ∅ ∧ S.Nonempty

variable (simple : AddsNoNames answer)

include simple

theorem byDescendingPowers_gives {name : String} (h : e.NamesIn {name}) (some : name ∈ S) :
    Gives answer (IsClosedWithin S) (byDescendingPowers name e)
      (e.byDescendingPowers answer name) := by
  -- The variable is the only identifier, so there is none left for the coefficients.
  have read : Gives answer (IsClosedWithin S) (ofExpr? name e) _ :=
    ofExpr?_gives (S := ∅) simple (fun t closed => ⟨closed, name, some⟩) (by simpa using h)
  exact read.bind (.done _)

theorem descendingForm_gives (h : e.NamesIn S) :
    Gives answer (IsClosedWithin S) (descendingForm e)
      (SymbolicAlgebra.descendingForm answer e) := by
  unfold descendingForm SymbolicAlgebra.descendingForm
  rcases names : e.identifiers with _ | ⟨name, _ | ⟨second, others⟩⟩
  case cons.nil =>
    have sole : e.NamesIn {name} := fun n occurs => by
      simpa [names] using Expr.mem_identifiers.mpr occurs
    have inside : name ∈ S := h name (Expr.mem_identifiers.mp (by simp [names]))
    exact (byDescendingPowers_gives simple sole inside).bind (.done _)
  all_goals exact .done _

theorem factorContent_gives (h : e.NamesIn S) :
    Gives answer (IsClosedWithin S) (factorContent e) (SymbolicAlgebra.factorContent answer e) := by
  have parts := namesIn_sumForm h
  unfold factorContent SymbolicAlgebra.factorContent
  cases form : e.sumForm with
  | node op terms =>
    cases op with
    | add =>
      rw [form, Expr.namesIn_node] at parts
      dsimp only
      cases found : contentAndRest? terms with
      | none => exact .done _
      | some split =>
        have rest := Expr.namesIn_sum.mpr (namesIn_contentAndRest? parts found)
        exact (descendingForm_gives simple rest).bind (.done _)
    | _ => exact .done _
  | _ => exact .done _

theorem factoredSum_gives (h : e.NamesIn S) :
    Gives answer (IsClosedWithin S) (factoredSum e) (SymbolicAlgebra.factoredSum answer e) := by
  have value : SymbolicAlgebra.factoredSum answer e =
      if (SymbolicAlgebra.factorContent answer e).changed then
        (SymbolicAlgebra.factorContent answer e).expr
      else factoredPrimitive e := by
    unfold SymbolicAlgebra.factoredSum
    by_cases content : (SymbolicAlgebra.factorContent answer e).changed = true
    · simp [content]
    · simp [content, factoredPrimitive]
  rw [value]
  exact (factorContent_gives simple h).bind (.done _)

theorem withFactoredSums_gives (h : e.NamesIn S) :
    Gives answer (IsClosedWithin S) (withFactoredSums e)
      (SymbolicAlgebra.withFactoredSums answer e) := by
  unfold withFactoredSums SymbolicAlgebra.withFactoredSums
  rw [List.flatMap_def]
  refine (Gives.mapM fun f member => .ite (fun _ => ?_) fun _ => .done _).bind (.done _)
  exact (factoredSum_gives simple (Expr.namesIn_factors.mpr h f member)).map

theorem reduceFactoredNode_gives (h : e.NamesIn S) :
    Gives answer (IsClosedWithin S) (reduceFactoredNode e)
      (SymbolicAlgebra.reduceFactoredNode answer e) := by
  cases e with
  | node op xs =>
    cases op with
    | divide =>
      rcases xs with _ | ⟨n, _ | ⟨d, _ | ⟨x, xs⟩⟩⟩
      case cons.cons.nil =>
        obtain ⟨top, bottom⟩ : n.NamesIn S ∧ d.NamesIn S := by simpa using h
        refine .ite (fun _ => .done _) fun _ => ?_
        exact (withFactoredSums_gives simple top).bind
          ((withFactoredSums_gives simple bottom).bind (.done _))
      all_goals exact .done _
    | _ => exact .done _
  | _ => exact .done _

omit simple in
theorem everywhere_gives {rule : Expr → Asking Step} {plain : Expr → Step}
    {allowed : Expr → Prop}
    (each : ∀ e : Expr, e.NamesIn S → Gives answer allowed (rule e) (plain e))
    (keeps : ∀ e : Expr, e.NamesIn S → (plain e).expr.NamesIn S) (h : e.NamesIn S) :
    Gives answer allowed (everywhere rule e) (SymbolicAlgebra.everywhere plain e) := by
  have all {xs : List Expr} (names : ∀ x ∈ xs, x.NamesIn S)
      (parts : ∀ x ∈ xs, Gives answer allowed (everywhere rule x)
        (SymbolicAlgebra.everywhere plain x)) :
      Gives answer allowed (everywhereAll rule xs) (SymbolicAlgebra.everywhereAll plain xs) ∧
        ∀ x ∈ (SymbolicAlgebra.everywhereAll plain xs).1, x.NamesIn S := by
    constructor
    · induction xs with
      | nil => exact .done _
      | cons x xs ih =>
        obtain ⟨first, rest⟩ := List.forall_mem_cons.mp parts
        rw [everywhereAll, SymbolicAlgebra.everywhereAll]
        exact first.bind ((ih (List.forall_mem_cons.mp names).2 rest).bind (.done _))
    · rw [everywhereAll_fst]
      intro y member
      obtain ⟨x, inside, rfl⟩ := List.mem_map.mp member
      exact (names x inside).everywhere keeps
  induction e with
  | call f xs ih =>
    have parts := Expr.namesIn_call.mp h
    obtain ⟨below, names⟩ := all parts fun x member => ih x member (parts x member)
    rw [everywhere, SymbolicAlgebra.everywhere]
    exact below.bind ((each _ (Expr.namesIn_call.mpr names)).bind (.done _))
  | node op xs ih =>
    have parts := Expr.namesIn_node.mp h
    obtain ⟨below, names⟩ := all parts fun x member => ih x member (parts x member)
    rw [everywhere, SymbolicAlgebra.everywhere]
    exact below.bind ((each _ (Expr.namesIn_node.mpr names)).bind (.done _))
  | _ => exact each _ h

theorem round_gives (h : e.NamesIn S) :
    Gives answer (IsClosedWithin S) (round e) (SymbolicAlgebra.round answer e) := by
  rw [round_eq]
  exact (everywhere_gives (fun _ => reduceFactoredNode_gives simple)
    (fun _ => namesIn_reduceFactoredNode simple) (namesIn_beforeFactoring h)).map

theorem settle_gives (limit : Nat) (h : e.NamesIn S) :
    Gives answer (IsClosedWithin S) (settle limit e) (SymbolicAlgebra.settle answer limit e) := by
  induction limit generalizing e with
  | zero => exact .done _
  | succ limit ih =>
    rw [settle, SymbolicAlgebra.settle]
    exact (round_gives simple h).bind (.ite (fun _ => .done _) fun _ => ih (namesIn_round simple h))

/-- What is asked for on the way to a normal form has no identifier, and nothing is asked for unless
the tree has one. -/
theorem normalize_gives (options : RoundLimits) (h : e.NamesIn S) :
    Gives answer (IsClosedWithin S) (normalize options e) (normalizeUsing answer options e) :=
  (settle_gives simple _ (namesIn_toSums h)).bind (.done _)

end Passes

theorem normalize_of_closed (options : RoundLimits) {e : Expr} (closed : e.NamesIn ∅) :
    normalize options e = done (normalizeUsing id options e) := by
  -- With no identifiers to begin with, no tree is one that may be asked for.
  have simple : AddsNoNames id := fun _ _ h => h
  have gives := normalize_gives simple options closed
  have nothing : (normalize options e).asked id = [] :=
    List.eq_nil_iff_forall_not_mem.mpr fun t member =>
      Set.not_nonempty_empty (gives.allowed t member).2
  rw [eq_done nothing, gives.run_eq]

end Asking

/-! ## Two levels -/

theorem namesIn_empty_iff {e : Expr} : e.NamesIn ∅ ↔ e.identifiers = [] := by
  simp only [Expr.NamesIn, Set.mem_empty_iff_false, imp_false, ← Expr.mem_identifiers,
    List.eq_nil_iff_forall_not_mem]

/-- The requests are all that the passes need to know of other normal forms. -/
theorem run_normalize_eq {answer : Expr → Expr} (simple : AddsNoNames answer)
    (options : RoundLimits) (e : Expr) :
    (Asking.normalize options e).run answer = normalizeUsing answer options e :=
  (Asking.normalize_gives simple options (S := Set.univ) fun _ _ => trivial).run_eq

theorem normalizeUsing_of_closed {options : RoundLimits} {e : Expr} (closed : e.NamesIn ∅)
    {answer : Expr → Expr} (simple : AddsNoNames answer) :
    normalizeUsing answer options e = normalizeUsing id options e := by
  rw [← run_normalize_eq simple, Asking.normalize_of_closed options closed]
  rfl

theorem normalFormClosed_of_closed {t : Expr} (closed : t.NamesIn ∅) :
    normalFormClosed t = normalForm t := by
  rw [normalForm, normalize, normalizeWithin,
    normalizeUsing_of_closed closed normalFormClosed_addsNoNames, normalFormClosed]

theorem closed_of_asked {answer : Expr → Expr} (simple : AddsNoNames answer) {options : RoundLimits}
    {e t : Expr} (member : t ∈ (Asking.normalize options e).asked answer) : t.NamesIn ∅ :=
  ((Asking.normalize_gives simple options (S := Set.univ) fun _ _ => trivial).allowed t member).1

/-- What is asked for may be answered by the whole recursion, since it does not go on there. -/
theorem run_normalForm (options : RoundLimits) (e : Expr) :
    (Asking.normalize options e).run normalForm = normalizeWithin options e := by
  -- The two answers need not agree, except on trees without identifiers.
  have same : ∀ t ∈ (Asking.normalize options e).asked normalFormClosed,
      normalForm t = normalFormClosed t := fun t member =>
    (normalFormClosed_of_closed (closed_of_asked normalFormClosed_addsNoNames member)).symm
  rw [Asking.run_congr same, run_normalize_eq normalFormClosed_addsNoNames, normalizeWithin]

theorem normalize_asks_nothing (options : RoundLimits) {e : Expr} (closed : e.NamesIn ∅) :
    Asking.normalize options e = .done (normalizeWithin options e) := by
  rw [Asking.normalize_of_closed options closed, normalizeWithin,
    normalizeUsing_of_closed closed normalFormClosed_addsNoNames]

theorem normalizeNested?_of_closed (depth : Nat) (options : RoundLimits) {e : Expr}
    (closed : e.NamesIn ∅) :
    normalizeNested? (depth + 1) options e = some (normalizeWithin options e) := by
  rw [normalizeNested?, normalize_asks_nothing options closed]
  rfl

/-- On the way to a normal form, others are asked for, and with the answers of the whole recursion
the way ends at the normal form. All that is asked for has no identifier, on behalf of a tree
without identifiers nothing is, and two levels are enough for any tree and any limits. -/
theorem normalize_nests_once (options : RoundLimits) (e : Expr) :
    (∀ answer, AddsNoNames answer →
      (Asking.normalize options e).run answer = normalizeUsing answer options e) ∧
    (Asking.normalize options e).run normalForm = normalizeWithin options e ∧
    (∀ t ∈ (Asking.normalize options e).asked normalForm, t.identifiers = []) ∧
    (e.identifiers = [] → Asking.normalize options e = .done (normalizeWithin options e)) ∧
    ∀ depth, normalizeNested? (depth + 2) options e = some (normalizeWithin options e) := by
  have closed : ∀ t ∈ (Asking.normalize options e).asked normalForm, t.NamesIn ∅ :=
    fun _ => closed_of_asked normalForm_addsNoNames
  refine ⟨fun _ simple => run_normalize_eq simple options e, run_normalForm options e,
    fun t member => namesIn_empty_iff.mp (closed t member),
    fun none => normalize_asks_nothing options (namesIn_empty_iff.mpr none), fun depth => ?_⟩
  rw [normalizeNested?, ← run_normalForm]
  refine Asking.run?_eq_some fun t member => ?_
  rw [normalizeNested?_of_closed depth {} (closed t member)]
  rfl

/-- The product `1 * 2` comes up with the coefficients of `2 * x + 3`, the other factor of
`4 * x + 6`. -/
theorem normalize_nests_once_of_even_sum :
    let limits : RoundLimits := { maxRounds := some 1 }
    let e : Expr := .div (.add (.mul (.ofInt 4) (.ident "x")) (.ofInt 6)) (.ident "y")
    let t : Expr := .mul .one (.ofInt 2)
    (Asking.normalize limits e).run id = normalizeUsing id limits e ∧
      t ∈ (Asking.normalize limits e).asked normalForm ∧ t.identifiers = [] ∧
      Asking.normalize {} t = .done (normalize t) := by
  intro limits e t
  have member : t ∈ (Asking.normalize limits e).asked normalForm := by decide +kernel
  obtain ⟨answered, -, closed, -, -⟩ := normalize_nests_once limits e
  obtain ⟨-, -, -, nothing, -⟩ := normalize_nests_once {} t
  exact ⟨answered id fun _ _ h => h, member, closed t member, nothing (closed t member)⟩

end SymbolicAlgebra
