import SymbolicAlgebra.Factor.Grouping
import SymbolicAlgebra.Proofs.Rounds

/-! Factors pulled out of sums, of all addends or of pairs of them: the product has the value of the
sum, and every addend is the factor times what is left in its place, unless a term has two powers of
a base that is taken out. -/
namespace SymbolicAlgebra

/-! ## Grouping step by step -/

/-- The addends of a pair without the factor that they share. -/
def pairRest (a b : Expr) : List Expr :=
  ((sharedFactor? true [a, b]).map SharedFactor.rest).getD [a, b]

/-- Four addends, and what was divided out of all of them. -/
structure FourAddends where
  content : List Expr
  a : Expr
  b : Expr
  c : Expr
  d : Expr

/-- The content of addends that have one, and the addends without it. -/
def contentAndAddends (terms : List Expr) : List Expr × List Expr :=
  match contentAndRest? terms with
  | some (content, rest) => ([.number content], rest)
  | none => ([], terms)

def fourAddends? (e : Expr) : Option FourAddends :=
  match e.sumForm with
  | .node .add terms =>
    match contentAndAddends terms with
    | (content, [a, b, c, d]) => some ⟨content, a, b, c, d⟩
    | _ => none
  | _ => none

/-- The result of the first pairing that works. -/
def firstGroup? (simplify : Expr → Expr) (s : FourAddends) : Option (Expr × Expr) :=
  groupPairs? simplify s.a s.b s.c s.d <|> groupPairs? simplify s.a s.c s.b s.d <|>
    groupPairs? simplify s.a s.d s.b s.c

/-- All that grouping does. -/
theorem factorGroups_cases (simplify : Expr → Expr) (e : Expr) :
    (factorGroups simplify e).expr = e ∨
      ∃ s sum shared, fourAddends? e = some s ∧ firstGroup? simplify s = some (sum, shared) ∧
        (factorGroups simplify e).expr = .product (s.content ++ [sum.differenceForm, shared]) := by
  fun_cases factorGroups simplify e with
  | case1 terms form content a b c d group sum shared found parts =>
    have split : contentAndAddends terms = (content, [a, b, c, d]) := parts
    refine .inr ⟨⟨content, a, b, c, d⟩, sum, shared, ?_, found, rfl⟩
    simp only [fourAddends?, form, split]
  | case2 | case3 | case4 => exact .inl rfl

/-! ## Sound grouping -/

section Conditions

variable (simplify : Expr → Expr) (Sound : Expr → Prop)

/-- A factor that two terms share is pulled out soundly, and so is simplifying what remains. -/
def PairOnce (a b : Expr) : Prop :=
  ((sharedFactor? true [a, b]).isSome → SharesOnce ([a, b].map .ofTerm)) ∧
    Sound (.sum (pairRest a b))

/-- Both pairs are sound, and so is simplifying the second one with the other sign, where the pairs
do not leave the same sum. -/
def PairsOnce (a b c d : Expr) : Prop :=
  PairOnce Sound a b ∧ PairOnce Sound c d ∧
    ((sharedPairFactor simplify a b).2 ≠ (sharedPairFactor simplify c d).2 →
      Sound (sharedPairFactor simplify c d).2.negate)

/-- The first pairing that works is sound. -/
def FirstPairsOnce (s : FourAddends) : Prop :=
  if (groupPairs? simplify s.a s.b s.c s.d).isSome then PairsOnce simplify Sound s.a s.b s.c s.d
  else if (groupPairs? simplify s.a s.c s.b s.d).isSome then
    PairsOnce simplify Sound s.a s.c s.b s.d
  else PairsOnce simplify Sound s.a s.d s.b s.c

/-- Where four addends are regrouped, the pairing is sound. -/
def GroupsOnce (e : Expr) : Prop :=
  ∀ s ∈ fourAddends? e, (firstGroup? simplify s).isSome → FirstPairsOnce simplify Sound s

end Conditions

section Decidable

variable {simplify : Expr → Expr} {Sound : Expr → Prop} [DecidablePred Sound]

instance (a b : Expr) : Decidable (PairOnce Sound a b) := inferInstanceAs (Decidable (_ ∧ _))

instance (a b c d : Expr) : Decidable (PairsOnce simplify Sound a b c d) :=
  inferInstanceAs (Decidable (_ ∧ _))

instance (s : FourAddends) : Decidable (FirstPairsOnce simplify Sound s) :=
  inferInstanceAs (Decidable (ite (_ = true) _ _))

instance (e : Expr) : Decidable (GroupsOnce simplify Sound e) :=
  inferInstanceAs (Decidable (∀ s ∈ fourAddends? e, _))

end Decidable

theorem firstPairs_of_once {simplify : Expr → Expr} {Sound : Expr → Prop} {s : FourAddends}
    {result : Expr × Expr} (once : FirstPairsOnce simplify Sound s)
    (found : firstGroup? simplify s = some result) :
    ∃ w x y z, [w, x, y, z].Perm [s.a, s.b, s.c, s.d] ∧ PairsOnce simplify Sound w x y z ∧
      groupPairs? simplify w x y z = some result := by
  unfold FirstPairsOnce at once
  unfold firstGroup? at found
  rcases (Option.orElse_eq_some _ _ _).mp found with first | ⟨failed, found⟩
  · simp only [first, Option.isSome_some, if_true] at once
    exact ⟨_, _, _, _, .refl _, once, first⟩
  simp only [failed, Option.isSome_none, Bool.false_eq_true, if_false] at once
  rcases (Option.orElse_eq_some _ _ _).mp found with second | ⟨failed', third⟩
  · simp only [second, Option.isSome_some, if_true] at once
    exact ⟨_, _, _, _, (List.Perm.swap s.b s.c [s.d]).cons s.a, once, second⟩
  · simp only [failed', Option.isSome_none, Bool.false_eq_true, if_false] at once
    have moved : [s.d, s.b, s.c].Perm [s.b, s.c, s.d] :=
      (List.perm_append_singleton s.d [s.b, s.c]).symm
    exact ⟨_, _, _, _, moved.cons s.a, once, third⟩

namespace Reading

variable {K : Type*} [Field K] [CharZero K] {R : Reading K} {simplify : Expr → Expr}
  {Sound : Expr → Prop}

/-- The shared factor of two terms times what remains of their sum. -/
theorem sharedPairFactor_spec (keeps : ∀ e, Sound e → R.Keeps e (simplify e)) {a b : Expr}
    (ha : R.Defined a) (hb : R.Defined b) (once : PairOnce Sound a b) :
    R.Defined (sharedPairFactor simplify a b).1 ∧ R.Defined (sharedPairFactor simplify a b).2 ∧
      R.val (sharedPairFactor simplify a b).1 * R.val (sharedPairFactor simplify a b).2 =
        R.val a + R.val b := by
  have pair : ∀ x ∈ [a, b], R.Defined x := by simp [ha, hb]
  obtain ⟨shares, sound⟩ := once
  unfold pairRest at sound
  unfold sharedPairFactor
  cases found : sharedFactor? true [a, b] with
  | some f =>
    rw [found] at shares
    simp only [found, Option.map_some, Option.getD_some] at sound
    obtain ⟨common, rest, value⟩ := sharedFactor?_spec pair (shares rfl) found
    obtain ⟨defined, same⟩ := keeps _ sound ((defined_sum _).mpr rest)
    refine ⟨common, defined, ?_⟩
    dsimp only
    rw [same, val_sum, value]
    simp
  | none =>
    simp only [found, Option.map_none, Option.getD_none] at sound
    obtain ⟨defined, same⟩ := keeps _ sound ((defined_sum _).mpr pair)
    refine ⟨defined_one, defined, ?_⟩
    dsimp only
    rw [same]
    simp

/-- The product of a pairing that works has the value of all four terms. -/
theorem groupPairs?_spec (keeps : ∀ e, Sound e → R.Keeps e (simplify e)) {a b c d : Expr}
    (h : ∀ x ∈ [a, b, c, d], R.Defined x) (once : PairsOnce simplify Sound a b c d)
    {sum shared : Expr} (found : groupPairs? simplify a b c d = some (sum, shared)) :
    R.Defined sum ∧ R.Defined shared ∧
      R.val sum * R.val shared = ([a, b, c, d].map R.val).sum := by
  obtain ⟨firstOnce, secondOnce, opposite⟩ := once
  obtain ⟨left, first, firstValue⟩ :=
    sharedPairFactor_spec keeps (h a (by simp)) (h b (by simp)) firstOnce
  obtain ⟨right, second, secondValue⟩ :=
    sharedPairFactor_spec keeps (h c (by simp)) (h d (by simp)) secondOnce
  have total : ([a, b, c, d].map R.val).sum = (R.val a + R.val b) + (R.val c + R.val d) := by
    simp [add_assoc]
  rw [total, ← firstValue, ← secondValue]
  unfold groupPairs? at found
  dsimp only at found
  split at found
  · cases found
  split at found
  · rename_i same
    cases found
    refine ⟨by simp [left, right], first, ?_⟩
    rw [← same]
    simp
    ring
  · rename_i different
    split at found
    · rename_i same
      cases found
      obtain ⟨-, value⟩ := keeps _ (opposite different) (defined_negate second)
      refine ⟨by simp [left, defined_negate right], first, ?_⟩
      rw [same] at firstValue ⊢
      rw [value, val_negate second] at firstValue ⊢
      simp [val_negate right]
      ring
    · cases found

theorem fourAddends?_spec (only : R.OnlyArithmetic) {e : Expr} (h : R.Defined e) {s : FourAddends}
    (found : fourAddends? e = some s) :
    (∀ x ∈ s.content, R.Defined x) ∧ (∀ x ∈ [s.a, s.b, s.c, s.d], R.Defined x) ∧
      (s.content.map R.val).prod * ([s.a, s.b, s.c, s.d].map R.val).sum = R.val e := by
  obtain ⟨flat, same⟩ := sumForm_keeps only e h
  unfold fourAddends? at found
  split at found
  · rename_i terms form
    rw [form] at flat same
    have defined := (defined_node_add terms).mp flat
    split at found
    · rename_i content a b c d parts
      cases found
      rw [← same, val_node_add]
      unfold contentAndAddends at parts
      split at parts
      · rename_i number rest divided
        cases parts
        obtain ⟨hn, rest, value⟩ := contentAndRest?_spec defined divided
        exact ⟨by simpa using hn, rest, by simpa using value⟩
      · cases parts
        exact ⟨by simp, defined, by simp⟩
    · cases found
  · cases found

/-- The sum of four terms is the product that a sound grouping makes of it. -/
theorem factorGroups_keeps (only : R.OnlyArithmetic)
    (keeps : ∀ e, Sound e → R.Keeps e (simplify e)) {e : Expr}
    (once : GroupsOnce simplify Sound e) :
    R.Keeps e (factorGroups simplify e).expr := by
  intro h
  rcases factorGroups_cases simplify e with same | ⟨s, sum, shared, addends, found, result⟩
  · rw [same]
    exact ⟨h, rfl⟩
  · obtain ⟨content, defined, whole⟩ := fourAddends?_spec only h addends
    have sound := once s addends (Option.isSome_of_eq_some found)
    obtain ⟨w, x, y, z, perm, pairs, group⟩ := firstPairs_of_once sound found
    obtain ⟨hsum, hshared, product⟩ :=
      groupPairs?_spec keeps (fun v member => defined v (perm.mem_iff.mp member)) pairs group
    rw [(perm.map R.val).sum_eq] at product
    obtain ⟨restored, value⟩ := toDifferences_keeps sum hsum
    rw [result]
    constructor
    · refine (defined_product _).mpr (List.forall_mem_append.mpr ⟨content, ?_⟩)
      exact List.forall_mem_cons.mpr ⟨restored, List.forall_mem_singleton.mpr hshared⟩
    · rw [← whole, ← product, val_product, List.map_append, List.prod_append, ← value]
      simp [Expr.differenceForm]

/-! ## Both ways to pull out factors -/

/-- Pulling shared factors out of sums, and out of the pairs of four addends, keeps the value of
every tree that is factored soundly: each addend is the factor times the addend left in its place. -/
theorem sharedFactors_value (ident : String → K) :
    (∀ e, Visits factorSharedNode PullsOnce e → (ofAssignment ident).Defined e →
      (ofAssignment ident).Defined (factorShared e).expr ∧
        (ofAssignment ident).val (factorShared e).expr = (ofAssignment ident).val e) ∧
    (∀ e, GroupsOnce normalForm (FactorsOnce {}) e → (ofAssignment ident).Defined e →
      (ofAssignment ident).Defined (factorGroups normalForm e).expr ∧
        (ofAssignment ident).val (factorGroups normalForm e).expr = (ofAssignment ident).val e) ∧
    ∀ leadPositive terms f, (∀ t ∈ terms, (ofAssignment ident).Defined t) →
      SharesOnce (terms.map .ofTerm) → sharedFactor? leadPositive terms = some f →
        f.rest.map (fun x => (ofAssignment ident).val f.common * (ofAssignment ident).val x) =
          terms.map (ofAssignment ident).val := by
  have laws := ofAssignment_lawful ident
  refine ⟨fun e once h => factorShared_keeps once h, fun e once h => ?_, ?_⟩
  · exact factorGroups_keeps laws.only (fun e sound => normalizeWithin_keeps laws sound) once h
  · intro leadPositive terms f h once found
    exact (sharedFactor?_addends h once found).2.2

/-- Where `x` and `y` are `5`, the sum `x * y + x^2` is `x * (y + x)`, addend by addend, and
`x^3 + 2 * x^2 - 9 * x - 18` is `(x^2 - 9) * (x + 2)`. -/
theorem sharedFactors_value_of_cubic :
    let R := ofAssignment fun _ => (5 : ℚ)
    let x : Expr := .ident "x"
    let square : Expr := .pow x (.ofInt 2)
    let terms : List Expr := [.mul x (.ident "y"), square]
    let cubic : Expr := .sum [.pow x (.ofInt 3), .mul (.ofInt 2) square, .mul (.ofInt (-9)) x,
      .ofInt (-18)]
    (Visits factorSharedNode PullsOnce (.sum terms) ∧ R.Defined (.sum terms) ∧
        R.val (.mul x (.add (.ident "y") x)) = R.val (.sum terms)) ∧
      (GroupsOnce normalForm (FactorsOnce {}) cubic ∧ R.Defined cubic ∧
        R.val (.mul (.sub square (.ofInt 9)) (.add x (.ofInt 2))) = R.val cubic) ∧
      SharesOnce (terms.map .ofTerm) ∧
        [R.val x * R.val (.ident "y"), R.val x * R.val x] = terms.map R.val := by
  intro R x square terms cubic
  have pulls : Visits factorSharedNode PullsOnce (.sum terms) := by decide +kernel
  have groups : GroupsOnce normalForm (FactorsOnce {}) cubic := by decide +kernel
  have shares : SharesOnce (terms.map .ofTerm) := by decide +kernel
  have power (n : ℕ) : R.Defined (.pow x (.ofInt n)) :=
    (defined_pow _ _).mpr ⟨trivial, rfl, n, by simp, fun _ => Int.natCast_nonneg n⟩
  have addends : ∀ t ∈ terms, R.Defined t := by
    simp only [terms, List.forall_mem_cons, defined_mul]
    exact ⟨⟨trivial, trivial⟩, power 2, List.forall_mem_nil _⟩
  have sum : R.Defined (.sum terms) := (defined_sum _).mpr addends
  have defined : R.Defined cubic := by
    simp only [cubic, defined_sum, List.forall_mem_cons, defined_mul]
    exact ⟨power 3, ⟨defined_ofInt 2, power 2⟩, ⟨defined_ofInt _, trivial⟩, defined_ofInt _,
      List.forall_mem_nil _⟩
  have shared : (factorShared (.sum terms)).expr = .mul x (.add (.ident "y") x) := by
    decide +kernel
  have grouped : (factorGroups normalForm cubic).expr =
      .mul (.sub square (.ofInt 9)) (.add x (.ofInt 2)) := by
    decide +kernel
  have found : (sharedFactor? false terms).map (fun f => (f.common, f.rest)) =
      some (x, [.ident "y", x]) := by
    decide +kernel
  obtain ⟨f, factor, same⟩ := Option.map_eq_some_iff.mp found
  obtain ⟨common, rest⟩ := Prod.mk.inj same
  obtain ⟨whole, regrouped, each⟩ := sharedFactors_value fun _ => (5 : ℚ)
  have addend := each false terms f addends shares factor
  rw [common, rest] at addend
  exact ⟨⟨pulls, sum, shared ▸ (whole _ pulls sum).2⟩,
    ⟨groups, defined, grouped ▸ (regrouped _ groups defined).2⟩, shares, addend⟩

/-- A term with two powers of `x` loses the shared factor `x` from both: `x * x^2 + x` becomes
`x * (x + 1)`. -/
theorem factorShared_fails_on_repeated_base :
    let R := ofAssignment fun _ => (2 : ℚ)
    let x : Expr := .ident "x"
    let e : Expr := .add (.mul x (.pow x (.ofInt 2))) x
    R.Defined e ∧ R.val (factorShared e).expr ≠ R.val e := by
  intro R x e
  have result : (factorShared e).expr = .mul x (.add x .one) := by decide +kernel
  have square : R.val (.pow x (.ofInt 2)) = 4 := by
    have exponent : R.val (.ofInt 2) = ((2 : ℤ) : ℚ) := by simp
    rw [val_pow, exponent, power_intCast]
    norm_num [R, x, ofAssignment]
  rw [result]
  refine ⟨?_, ?_⟩
  · simp only [e, defined_add, defined_mul, defined_pow]
    exact ⟨⟨trivial, trivial, rfl, 2, by simp, fun _ => by norm_num⟩, trivial⟩
  · simp only [e, val_mul, val_add, val_one, square]
    norm_num [R, x, ofAssignment]

end Reading

end SymbolicAlgebra
