import SymbolicAlgebra.Proofs.ChangeFlags
import SymbolicAlgebra.Proofs.RestoredDifferences

/-! Restoring the differences of a tree, writing them as sums and restoring them again comes back to
the same tree, and no sum is left with a negative addend. -/
namespace SymbolicAlgebra

open SymbolicAlgebra.Expr

/-- No addend but a negative one follows a negative one in front. -/
def LeadsWithPositive (first : Expr) (rest : List Expr) : Prop :=
  first.isNegative = true → ∀ d ∈ rest, d.isNegative = true

/-! ## The addend in front -/

theorem takePositive?_eq_none_iff (xs : List Expr) :
    takePositive? xs = none ↔ ∀ x ∈ xs, x.isNegative = true := by
  induction xs with
  | nil => simp [takePositive?]
  | cons x xs ih =>
    rw [List.forall_mem_cons, takePositive?]
    split
    · rename_i negative
      rw [Option.map_eq_none_iff, ih, and_iff_right negative]
    · rename_i positive
      exact iff_of_false nofun fun ⟨negative, _⟩ => positive negative

theorem isNegative_of_takePositive? {xs rest : List Expr} {p : Expr}
    (found : takePositive? xs = some (p, rest)) : p.isNegative = false := by
  induction xs generalizing rest with
  | nil => cases found
  | cons x xs ih =>
    rw [takePositive?] at found
    split at found
    · obtain ⟨⟨q, tail⟩, later, same⟩ := Option.map_eq_some_iff.mp found
      cases same
      exact ih later
    · rename_i positive
      cases found
      exact Bool.eq_false_iff.mpr positive

theorem bringPositiveForward_of_leads {first : Expr} {rest : List Expr}
    (leads : LeadsWithPositive first rest) :
    bringPositiveForward (first :: rest) = (first :: rest, false) := by
  rw [bringPositiveForward]
  split
  · rename_i negative
    have none := (takePositive?_eq_none_iff (first :: rest)).mpr
      (List.forall_mem_cons.mpr ⟨negative, leads negative⟩)
    rw [none]
  · rfl

theorem leads_of_bringPositiveForward {xs rest : List Expr} {first : Expr}
    (ordered : (bringPositiveForward xs).1 = first :: rest) : LeadsWithPositive first rest := by
  unfold bringPositiveForward at ordered
  split at ordered
  · cases ordered
  · split at ordered
    · split at ordered
      · rename_i found
        cases ordered
        intro negative
        rw [isNegative_of_takePositive? found] at negative
        cases negative
      · rename_i none
        cases ordered
        have all := (takePositive?_eq_none_iff _).mp none
        exact fun _ => (List.forall_mem_cons.mp all).2
    · rename_i positive
      cases ordered
      exact fun negative => absurd negative positive

/-! ## Chains of differences -/

/-- Addends that are not negative join the run. -/
theorem subtractFrom_append {run ds : List Expr} (positive : ∀ d ∈ ds, d.isNegative = false)
    (more : List Expr) : subtractFrom run (ds ++ more) = subtractFrom (run ++ ds) more := by
  induction ds generalizing run with
  | nil => rw [List.append_nil, List.nil_append]
  | cons d ds ih =>
    obtain ⟨here, later⟩ := List.forall_mem_cons.mp positive
    rw [List.cons_append, subtractFrom, here, if_neg Bool.false_ne_true, ih later,
      List.append_assoc, List.singleton_append]

/-- Once its addends are ordered, a sum is the chain of differences that starts at the first. -/
theorem sumToDifference_of_ordered {x y : Expr} {xs : List Expr} {first : Expr} {rest : List Expr}
    (ordered : (bringPositiveForward (x :: y :: xs)).1 = first :: rest) :
    (sumToDifference (.node .add (x :: y :: xs))).expr = subtractFrom [first] rest := by
  have long := (bringPositiveForward_perm (x :: y :: xs)).length_eq
  rw [sumToDifference]
  generalize bringPositiveForward (x :: y :: xs) = moved at ordered long ⊢
  obtain ⟨zs, changed⟩ := moved
  obtain rfl : zs = first :: rest := ordered
  dsimp only at long ⊢
  split
  · rfl
  · rename_i none
    have positive : ∀ d ∈ rest, d.isNegative = false := by simpa using none
    have alone : subtractFrom [first] (rest ++ []) = subtractFrom ([first] ++ rest) [] :=
      subtractFrom_append positive []
    rw [List.append_nil, List.singleton_append] at alone
    rw [alone, subtractFrom, sum_eq_node (by rw [long]; simp)]

theorem exists_chain {xs : List Expr} (two : 2 ≤ xs.length) :
    ∃ first rest, rest ≠ [] ∧ (first :: rest).Perm xs ∧ LeadsWithPositive first rest ∧
      (sumToDifference (.node .add xs)).expr = subtractFrom [first] rest := by
  match xs, two with
  | x :: y :: xs, _ =>
    have perm := bringPositiveForward_perm (x :: y :: xs)
    cases ordered : (bringPositiveForward (x :: y :: xs)).1 with
    | nil =>
      rw [ordered] at perm
      exact absurd perm.length_eq (by simp)
    | cons first rest =>
      rw [ordered] at perm
      refine ⟨first, rest, ?_, perm, leads_of_bringPositiveForward ordered,
        sumToDifference_of_ordered ordered⟩
      rintro rfl
      exact absurd perm.length_eq (by simp)

theorem sumToDifference_of_leads {first : Expr} {rest : List Expr} (some : rest ≠ [])
    (leads : LeadsWithPositive first rest) :
    (sumToDifference (.node .add (first :: rest))).expr = subtractFrom [first] rest := by
  obtain ⟨y, ys, rfl⟩ := List.exists_cons_of_ne_nil some
  exact sumToDifference_of_ordered (congrArg Prod.fst (bringPositiveForward_of_leads leads))

/-- What holds of the addends holds of their chain, if sums without negative addends and single
differences keep it. The run that is still to be subtracted from is negative only where it is the
first addend and all others are negative. -/
theorem subtractFrom_induction {P : Expr → Prop} {ds : List Expr}
    (sums : ∀ xs, 2 ≤ xs.length → (∀ x ∈ xs, x.isNegative = false ∧ P x) → P (.node .add xs))
    (differences : ∀ a, P a → ∀ d ∈ ds, d.isNegative = true → P (.sub a d.unsigned))
    {run : List Expr} (some : run ≠ []) (before : ∀ x ∈ run, P x) (after : ∀ d ∈ ds, P d)
    (positive : (∀ x ∈ run, x.isNegative = false) ∨
      run.length = 1 ∧ ∀ d ∈ ds, d.isNegative = true) :
    P (subtractFrom run ds) := by
  have whole : P (sum run) := by
    match run, some with
    | [x], _ => exact before x List.mem_cons_self
    | x :: y :: run, _ =>
      rw [sum_eq_node (by simp)]
      obtain positive | ⟨one, -⟩ := positive
      · exact sums _ (by simp) fun z member => ⟨positive z member, before z member⟩
      · simp at one
  induction ds generalizing run with
  | nil => exact whole
  | cons d ds ih =>
    obtain ⟨here, later⟩ := List.forall_mem_cons.mp after
    have rest := fun a ha e member => differences a ha e (List.mem_cons_of_mem d member)
    rw [subtractFrom]
    split
    · rename_i negative
      have difference := differences _ whole d List.mem_cons_self negative
      exact ih rest (List.cons_ne_nil _ _) (by simpa using difference) later
        (.inl (by simp [Expr.sub, Expr.isNegative])) difference
    · rename_i notNegative
      have joined : ∀ x ∈ run ++ [d], x.isNegative = false := by
        obtain positive | ⟨-, all⟩ := positive
        · exact List.forall_mem_append.mpr ⟨positive, by simpa using notNegative⟩
        · exact absurd (all d List.mem_cons_self) notNegative
      have each : ∀ x ∈ run ++ [d], P x :=
        List.forall_mem_append.mpr ⟨before, by simpa using here⟩
      have long : 2 ≤ (run ++ [d]).length := by
        have := List.length_pos_of_ne_nil some
        rw [List.length_append, List.length_singleton]
        omega
      refine ih rest (by simp) each later (.inl joined) ?_
      rw [sum_eq_node long]
      exact sums _ long fun x member => ⟨joined x member, each x member⟩

/-- What holds of ordered addends holds of the chain that starts at the first of them. -/
theorem chain_induction {P : Expr → Prop} {first : Expr} {rest : List Expr}
    (leads : LeadsWithPositive first rest)
    (sums : ∀ xs, 2 ≤ xs.length → (∀ x ∈ xs, x.isNegative = false ∧ P x) → P (.node .add xs))
    (differences : ∀ a, P a → ∀ d ∈ rest, d.isNegative = true → P (.sub a d.unsigned))
    (each : ∀ d ∈ first :: rest, P d) : P (subtractFrom [first] rest) := by
  obtain ⟨here, later⟩ := List.forall_mem_cons.mp each
  refine subtractFrom_induction sums differences (List.cons_ne_nil _ _) (by simpa using here)
    later ?_
  cases negative : first.isNegative with
  | false => exact .inl (by simpa using negative)
  | true => exact .inr ⟨rfl, leads negative⟩

namespace Expr

/-! ## No negative addend is left -/

/-- A sum of two or more operands has no negative one. -/
def HasPositiveAddends : Expr → Prop
  | .node op xs => op = .add → 2 ≤ xs.length → ∀ x ∈ xs, x.isNegative = false
  | _ => True

instance : DecidablePred HasPositiveAddends
  | .node _ _ => inferInstanceAs (Decidable (_ → _ → _))
  | .number _ | .complex _ | .ident _ | .call _ _ => .isTrue trivial

theorem negate_hasPositiveAddends {e : Expr} (h : e.AllParts HasPositiveAddends) :
    e.negate.AllParts HasPositiveAddends :=
  h.negate (fun _ => trivial) (fun _ => trivial) (fun _ => nofun) (fun _ _ => nofun)

theorem unsigned_hasPositiveAddends {e : Expr} (h : e.AllParts HasPositiveAddends) :
    e.unsigned.AllParts HasPositiveAddends := by
  induction e with
  | node op xs ih =>
    unfold unsigned
    split
    · rename_i n d same
      cases same
      have each := h.operands
      split
      · refine allParts_node.mpr ⟨nofun, ?_⟩
        simpa using ⟨ih n (by simp) (each n (by simp)), each d (by simp)⟩
      · exact h
    · split
      · exact negate_hasPositiveAddends h
      · exact h
  | _ =>
    unfold unsigned
    split
    · exact negate_hasPositiveAddends h
    · exact h

/-- Restoring differences leaves no sum with a negative addend. -/
theorem restored_hasPositiveAddends (e : Expr) : e.restored.AllParts HasPositiveAddends := by
  induction e with
  | number x => exact trivial
  | complex z => exact trivial
  | ident name => exact trivial
  | call f xs ih =>
    rw [restored_call]
    exact allParts_call.mpr ⟨trivial, List.forall_mem_map.mpr ih⟩
  | node op xs ih =>
    have each : ∀ y ∈ xs.map restored, y.AllParts HasPositiveAddends := List.forall_mem_map.mpr ih
    by_cases isSum : op = .add
    · subst isSum
      rw [restored_add]
      generalize xs.map restored = ys at each
      match ys, each with
      | [], each => exact allParts_node.mpr ⟨fun _ two => absurd two (by simp), each⟩
      | [y], each => exact allParts_node.mpr ⟨fun _ two => absurd two (by simp), each⟩
      | x :: y :: ys, each =>
        have two : 2 ≤ (x :: y :: ys).length := by simp
        obtain ⟨first, rest, -, perm, leads, chain⟩ := exists_chain two
        have addends := fun d member => each d (perm.mem_iff.mp member)
        rw [chain]
        refine chain_induction leads (fun xs _ h => ?_) (fun a ha d member _ => ?_) addends
        · exact allParts_node.mpr
            ⟨fun _ _ x member => (h x member).1, fun x member => (h x member).2⟩
        · have subtrahend :=
            unsigned_hasPositiveAddends (addends d (List.mem_cons_of_mem first member))
          exact allParts_node.mpr ⟨nofun, by simpa using ⟨ha, subtrahend⟩⟩
    · rw [restored_node_of_ne isSum]
      exact allParts_node.mpr ⟨fun contrary => absurd contrary isSum, each⟩

/-! ## There and back again -/

/-- The sum form of an expression gives it back. Its addends are in order, and subtracting from them
goes on as it does from a run of which the expression is the sum. -/
structure ComesBack (e : Expr) : Prop where
  back : e.summed.restored = e
  resumes : ∃ first rest run, e.summed.addends.map restored = first :: rest ∧
    LeadsWithPositive first rest ∧ sum run = e ∧
    ∀ more, subtractFrom [first] (rest ++ more) = subtractFrom run more

/-- An expression that is no sum in sum form goes on as the run of itself. -/
theorem comesBack_of_not_sum {e : Expr} (notSum : e.summed.isNode .add = false)
    (back : e.summed.restored = e) : e.ComesBack := by
  refine ⟨back, e, [], [e], ?_, fun _ => nofun, rfl, fun _ => rfl⟩
  rw [addends_of_not_sum notSum, List.map_singleton, back]

/-- Restoring the differences of a sum whose addends are in order is subtracting from them. -/
theorem comesBack_of_sum {e first : Expr} {ds rest run : List Expr}
    (isSum : e.summed = .node .add ds) (addends : ds.map restored = first :: rest) (some : rest ≠ [])
    (leads : LeadsWithPositive first rest) (whole : sum run = e)
    (resumes : ∀ more, subtractFrom [first] (rest ++ more) = subtractFrom run more) :
    e.ComesBack := by
  constructor
  · have chain := resumes []
    rw [List.append_nil, subtractFrom, whole] at chain
    rw [isSum, restored_add, addends, sumToDifference_of_leads some leads, chain]
  · exact ⟨first, rest, run, by rw [isSum]; exact addends, leads, whole, resumes⟩

theorem comesBack_sum {xs : List Expr} (two : 2 ≤ xs.length)
    (each : ∀ x ∈ xs, x.isNegative = false ∧ x.ComesBack) : (node .add xs).ComesBack := by
  match xs, two with
  | x :: y :: xs, _ =>
    have positive := fun z member => (each z member).1
    have addends : ((x :: y :: xs).map summed).map restored = x :: y :: xs := by
      rw [List.map_map]
      exact (List.map_congr_left fun z member => (each z member).2.back).trans (List.map_id _)
    have leads : LeadsWithPositive x (y :: xs) := by
      intro negative
      rw [positive x List.mem_cons_self] at negative
      cases negative
    have whole : sum (x :: y :: xs) = .node .add (x :: y :: xs) := rfl
    exact comesBack_of_sum (summed_node_of_ne (by decide) _) addends (List.cons_ne_nil _ _) leads
      whole (subtractFrom_append fun d member => positive d (List.mem_cons_of_mem x member))

/-- A difference goes on as a run of itself from where its left side goes on. -/
theorem comesBack_sub {a d : Expr} (ha : a.ComesBack) (hd : d.ComesBack)
    (negative : d.isNegative = true) (sign : d.unsigned.summed.negate = d.summed) :
    (sub a d.unsigned).ComesBack := by
  obtain ⟨first, rest, run, addends, leads, whole, resumes⟩ := ha.resumes
  have isSum : (sub a d.unsigned).summed = .node .add (a.summed.addends ++ [d.summed]) := by
    rw [summed_sub, sign]
  have terms : (a.summed.addends ++ [d.summed]).map restored = first :: (rest ++ [d]) := by
    rw [List.map_append, addends, List.map_singleton, hd.back, List.cons_append]
  have ordered : LeadsWithPositive first (rest ++ [d]) := fun inFront =>
    List.forall_mem_append.mpr ⟨leads inFront, by simpa using negative⟩
  have alone : sum [sub a d.unsigned] = sub a d.unsigned := rfl
  have resumed (more : List Expr) :
      subtractFrom [first] (rest ++ [d] ++ more) = subtractFrom [sub a d.unsigned] more := by
    rw [List.append_assoc, resumes, List.singleton_append, subtractFrom, if_pos negative, whole]
  exact comesBack_of_sum isSum terms (by simp) ordered alone resumed

/-- A tree in sum form: exact numerals, the operands that the operators take, no difference, and
beside a numeral in front of a product no factor that takes a sign, such as a second numeral. -/
def IsSumForm (e : Expr) : Prop :=
  e.IsWellFormed ∧ e.isNode .subtract = false ∧ e.HasSignInFront

instance : DecidablePred IsSumForm := fun e =>
  inferInstanceAs (Decidable (e.IsWellFormed ∧ _ ∧ e.HasSignInFront))

theorem IsWellFormed.hasNoFloat {e : Expr} (h : e.IsWellFormed) : e.HasNoFloat := by
  cases e with
  | number x =>
    cases x with
    | float x => cases h
    | exact _ | nan => trivial
  | _ => trivial

theorem map_summed_restored {xs : List Expr} (each : ∀ x ∈ xs, x.restored.ComesBack) :
    ((xs.map restored).map summed).map restored = xs.map restored := by
  rw [List.map_map, List.map_map]
  exact List.map_congr_left fun x member => (each x member).back

/-- Restored differences are restored again. -/
theorem restored_comesBack {e : Expr} (h : e.AllParts IsSumForm) : e.restored.ComesBack := by
  induction e with
  | number x => exact comesBack_of_not_sum rfl rfl
  | complex z => exact comesBack_of_not_sum rfl rfl
  | ident name => exact comesBack_of_not_sum rfl rfl
  | call f xs ih =>
    have each := fun x member => ih x member ((allParts_call.mp h).2 x member)
    rw [restored_call]
    refine comesBack_of_not_sum ?_ ?_
    · rw [summed_call]
      rfl
    · rw [summed_call, restored_call, map_summed_restored each]
  | node op xs ih =>
    have each := fun x member => ih x member (h.operands x member)
    have notDifference : op ≠ .subtract := by
      rintro rfl
      cases h.here.2.1
    by_cases isSum : op = .add
    · subst isSum
      have two : 2 ≤ (xs.map restored).length := by
        rw [List.length_map]
        exact h.here.1.1
      obtain ⟨first, rest, -, perm, leads, chain⟩ := exists_chain two
      have addends (d : Expr) (member : d ∈ first :: rest) :
          d.ComesBack ∧ (d.isNegative = true → d.unsigned.summed.negate = d.summed) := by
        obtain ⟨x, inside, rfl⟩ := List.mem_map.mp (perm.mem_iff.mp member)
        have part := h.operands x inside
        exact ⟨each x inside, negate_summed_unsigned (part.mono fun _ form => form.2.2)
          (part.mono fun _ form => form.1.hasNoFloat)⟩
      rw [restored_add, chain]
      refine chain_induction leads (fun _ => comesBack_sum) (fun a ha d member negative => ?_)
        fun d member => (addends d member).1
      obtain ⟨back, sign⟩ := addends d (List.mem_cons_of_mem first member)
      exact comesBack_sub ha back negative (sign negative)
    · rw [restored_node_of_ne isSum]
      refine comesBack_of_not_sum ?_ ?_
      · rw [summed_node_of_ne notDifference]
        exact beq_eq_false_iff_ne.mpr isSum
      · rw [summed_node_of_ne notDifference, restored_node_of_ne isSum, map_summed_restored each]

end Expr

/-- Once the differences of a tree in sum form are restored, writing them as sums and restoring them
again comes back to the same tree, and in that tree no sum of two or more operands has a negative
one. -/
theorem toDifferences_toSums_toDifferences {e : Expr} (h : e.AllParts IsSumForm) :
    (toDifferences (toSums (toDifferences e).expr).expr).expr = (toDifferences e).expr ∧
      (toDifferences e).expr.AllParts HasPositiveAddends :=
  ⟨(restored_comesBack h).back, restored_hasPositiveAddends e⟩

/-- In `-2 * a + (-b + c) + -(d * (x + -y)) / z + w` the sum inside is subtracted from first. -/
theorem toDifferences_toSums_toDifferences_of_nested :
    let e := Expr.node .add [mul (ofInt (-2)) (.ident "a"),
      add (mul (ofInt (-1)) (.ident "b")) (.ident "c"),
      div (.node .multiply [ofInt (-1), .ident "d",
        add (.ident "x") (mul (ofInt (-1)) (.ident "y"))]) (.ident "z"), .ident "w"]
    let restored := add (sub (sub (sub (.ident "c") (.ident "b")) (mul (ofInt 2) (.ident "a")))
      (div (mul (.ident "d") (sub (.ident "x") (.ident "y"))) (.ident "z"))) (.ident "w")
    e.AllParts IsSumForm ∧ (toDifferences e).expr = restored ∧
      (toDifferences (toSums restored).expr).expr = restored ∧
      restored.AllParts HasPositiveAddends := by
  intro e restored
  have form : e.AllParts IsSumForm := by decide +kernel
  have result : (toDifferences e).expr = restored := by decide +kernel
  have back := toDifferences_toSums_toDifferences form
  rw [result] at back
  exact ⟨form, result, back⟩

end SymbolicAlgebra
