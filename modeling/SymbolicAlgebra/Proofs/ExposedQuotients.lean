import SymbolicAlgebra.Proofs.ChangeFlags
import SymbolicAlgebra.Proofs.ExposedTerms
import SymbolicAlgebra.Proofs.OrderedShape

/-! An exposed division by zero through the passes after collection: trimming, ordering, cancelling
and the return to differences. -/
namespace SymbolicAlgebra

namespace Reading

variable {K : Type*} [Field K] [CharZero K] {R : Reading K} {atOnce later : Expr → Prop}
  {differences : Prop} {sums : Bool}

omit [CharZero K] in
theorem exposed_undefinedQuotient : R.Exposed atOnce differences sums undefinedQuotient :=
  .quotient .nan Expr.isNonzeroNumeral_one.isScalar

theorem not_isZero_of_isScalar {e : Expr} (h : e.IsScalar) : e.isZero = false := by
  rcases h.cases with ⟨r, nonzero, rfl⟩ | ⟨xs, rfl, -⟩
  · simp [Expr.isZero, Numeral.isZero, nonzero]
  · rfl

omit [CharZero K] in
theorem defined_of_isScalar {e : Expr} (h : e.IsScalar) : R.Defined e :=
  (defined_factors e).mp fun f member => defined_of_isNonzeroNumeral (h f member)

/-! ## Trimming -/

theorem trimQuotient_zeroDivided {n d : Expr} (h : R.ZeroDivided n d) :
    R.Exposed atOnce differences false (trimQuotient n d).expr := by
  unfold trimQuotient
  split
  · exact exposed_undefinedQuotient
  split
  · exact h.exposed
  split
  · rename_i one
    have := val_of_isOne h.divisor one
    rw [h.zero] at this
    exact absurd this zero_ne_one
  split
  · rename_i zero
    exact absurd (val_of_isZero h.dividend zero.1) h.nonzero
  split
  · rename_i same
    exact absurd (same ▸ h.zero) h.nonzero
  · exact h.exposed

theorem Exposed.trimQuotient {n d : Expr} (h : R.Exposed atOnce differences false n)
    (scalar : d.IsScalar) : R.Exposed atOnce differences false (trimQuotient n d).expr := by
  unfold SymbolicAlgebra.trimQuotient
  rw [not_isZero_of_isScalar scalar, h.not_isZero]
  simp only [Bool.false_eq_true, ↓reduceIte, false_and]
  split
  · exact .quotient h scalar
  split
  · exact h
  split
  · rename_i same
    exact absurd (same ▸ defined_of_isScalar scalar) h.not_defined
  · exact .quotient h scalar

theorem trimPower_reciprocal {b m : Expr} {k : ℤ} (base : R.Defined b) (zero : R.val b = 0)
    (exponent : R.Defined m) (value : R.val m = k) (negative : k < 0) :
    R.Exposed atOnce differences false (trimPower b m).expr := by
  unfold trimPower
  split
  · rename_i one
    have same := val_of_isOne exponent one
    rw [value] at same
    have : k = 1 := by exact_mod_cast same
    omega
  split
  · rename_i none
    have same := val_of_isZero exponent none.1
    rw [value] at same
    have : k = 0 := by exact_mod_cast same
    omega
  split
  · rename_i one
    have := val_of_isOne base one
    rw [zero] at this
    exact absurd this zero_ne_one
  · exact .reciprocal base zero exponent value negative

theorem trimProduct_of_no_zero {xs : List Expr} (h : ∀ x ∈ xs, x.isZero = false) :
    (trimProduct xs).expr = .product (xs.filter fun x => !x.isOne) := by
  have none : xs.any Expr.isZero = false := List.any_eq_false.mpr fun x member => by
    simp [h x member]
  rw [trimProduct, none]
  simp [rebuilt]

theorem exposure_trim (only : R.OnlyArithmetic)
    (next : ∀ d, atOnce d → (SymbolicAlgebra.trim d).expr = .zero) :
    R.Exposure trimNode (fun _ => True) atOnce False (R.Exposed later False) where
  inSum := Exposed.inSum
  nan := .nan
  numeral _ := rfl
  scalars {xs} numerals := by
    show (trimProduct xs).expr.IsScalar
    rw [trimProduct_of_no_zero fun x member =>
      not_isZero_of_isScalar (numerals x member).isScalar]
    exact Expr.isScalar_product fun x member => numerals x (List.mem_of_mem_filter member)
  keeps e _ := trimNode_keeps only e
  divided _ h := trimQuotient_zeroDivided h
  atOnce {n d} _ seen _ _ := by
    have zero : (everywhere trimNode d).expr = .zero := next d seen
    rw [zero]
    exact exposed_undefinedQuotient
  reciprocal base zero exponent value negative :=
    trimPower_reciprocal base zero exponent value negative
  quotient _ h scalar := h.trimQuotient scalar
  multiple {s xs ys x} split h others := by
    show R.Exposed later False s (trimProduct xs).expr
    rw [trimProduct_of_no_zero fun y member => ?_]
    · exact .drop_ones split h others
    · rcases List.mem_cons.mp (split.mem_iff.mp member) with rfl | numeral
      · exact h.not_isZero
      · exact not_isZero_of_isScalar (others y numeral).isScalar
  sum {xs ys x} split h others := by
    have kept := split.filter fun x => !x.isZero
    rw [List.filter_cons, h.not_isZero] at kept
    exact .of_sum kept h (defined_filter others)
  minuend := nofun
  subtrahend := nofun

/-! ## The order of operands -/

omit [CharZero K] in
theorem rearranging_orderOperands (only : R.OnlyArithmetic)
    (next : ∀ d, atOnce d → later (orderOperands d).expr) :
    R.Rearranging orderOperandsNode atOnce later False False where
  keeps := orderOperandsNode_keeps only
  next := next
  scalars {xs} numerals := by
    rw [orderOperandsNode_expr]
    exact fun f member => numerals f ((arranged_perm .multiply xs).mem_iff.mp member)
  multiple {s xs ys x} split h others := by
    rw [orderOperandsNode_expr]
    exact .multiple ((arranged_perm .multiply xs).trans split) h others
  sum {xs ys x} split h others := by
    rw [orderOperandsNode_expr]
    exact .sum ((arranged_perm .add xs).trans split) h others
  minuend := nofun
  subtrahend := nofun

/-! ## Cancellation -/

theorem netPowers_nil (ps : List Power) : netPowers ps [] = ⟨ps, [], false⟩ := by
  induction ps with
  | nil => rfl
  | cons p ps ih =>
    rw [netPowers, splitAtBase, ih]

theorem ofExpr_of_isScalar {e : Expr} (h : e.IsScalar) :
    ∃ r : Rat, r ≠ 0 ∧ FactoredTerm.ofExpr e = ⟨.exact r, []⟩ := by
  obtain ⟨r, nonzero, coefficient⟩ := numeralProduct_of_numerals h
  refine ⟨r, nonzero, ?_⟩
  rw [FactoredTerm.ofExpr, coefficient, (filter_isNumber_of_numerals h).2]
  rfl

/-- As base and exponent it is what it was. -/
theorem Exposed.powerExpr_asPower {e : Expr} (h : R.Exposed atOnce differences sums e) :
    FactoredTerm.powerExpr e.asPower = e := by
  cases h with
  | @reciprocal _ b m k base zero exponent value negative =>
    have notOne : m.isOne = false := by
      by_contra one
      have same := val_of_isOne exponent (by simpa using one)
      rw [value] at same
      have : k = 1 := by exact_mod_cast same
      omega
    show (if m.isOne then b else .pow b m) = .pow b m
    rw [notOne]
    rfl
  | _ => rfl

/-- Among numerals the division is the only power. -/
theorem ofExpr_of_split {n x : Expr} {ys : List Expr} (split : n.factors.Perm (x :: ys))
    (symbolic : x.isNumber = false) (others : ∀ y ∈ ys, y.IsNonzeroNumeral) :
    ∃ r : Rat, r ≠ 0 ∧ FactoredTerm.ofExpr n = ⟨.exact r, [x.asPower]⟩ := by
  obtain ⟨kept, gone⟩ := filter_isNumber_of_numerals others
  have front := split.filter Expr.isNumber
  have rest := split.filter fun x => !x.isNumber
  rw [List.filter_cons, symbolic, kept] at front
  rw [List.filter_cons, symbolic, gone] at rest
  obtain ⟨r, nonzero, coefficient⟩ := numeralProduct_of_numerals
    fun y member => others y (front.mem_iff.mp member)
  refine ⟨r, nonzero, ?_⟩
  rw [FactoredTerm.ofExpr, ← numeralProduct_filter, coefficient, List.perm_singleton.mp rest]
  rfl

theorem Exposed.toExpr_asPower {x : Expr} (h : R.Exposed atOnce differences sums x) {z : ℤ}
    (nonzero : z ≠ 0) :
    R.Exposed atOnce differences sums (FactoredTerm.toExpr ⟨.ofInt z, [x.asPower]⟩) := by
  unfold FactoredTerm.toExpr
  rw [List.map_singleton, h.powerExpr_asPower]
  refine .of_product List.perm_append_comm h fun y member => ?_
  split at member
  · cases member
  · rw [List.mem_singleton.mp member]
    exact ⟨z, Int.cast_ne_zero.mpr nonzero, rfl⟩

theorem isScalar_toExpr {z : ℤ} (nonzero : z ≠ 0) :
    (FactoredTerm.toExpr ⟨.ofInt z, []⟩).IsScalar := by
  refine Expr.isScalar_product fun y member => ?_
  rw [List.map_nil, List.append_nil] at member
  split at member
  · cases member
  · rw [List.mem_singleton.mp member]
    exact ⟨z, Int.cast_ne_zero.mpr nonzero, rfl⟩

/-- The numerals on both sides are reduced, and what holds the division stays above the bar. -/
theorem Exposed.ofTerms {n d : Expr} (h : R.Exposed atOnce differences false n)
    (scalar : d.IsScalar) :
    R.Exposed atOnce differences false
      (Cancellation.ofTerms ⟨n, d⟩ (.ofExpr n) (.ofExpr d)).expr := by
  obtain ⟨x, ys, split, inner, others⟩ := h.exists_factor
  obtain ⟨s, nonzero, bottom⟩ := ofExpr_of_isScalar scalar
  have whole : R.Exposed atOnce differences false (.div n d) := .quotient h scalar
  by_cases known : x = .nan
  · subst known
    have undefined : (FactoredTerm.ofExpr n).coefficient = .nan :=
      foldl_mul_of_mem _ (List.mem_filterMap.mpr
        ⟨_, split.mem_iff.mpr List.mem_cons_self, rfl⟩)
    unfold Cancellation.ofTerms
    rw [undefined]
    exact whole
  have symbolic : x.isNumber = false := by
    rw [← Bool.not_eq_true]
    exact fun number => known (inner.eq_nan_of_isNumber number)
  obtain ⟨r, notZero, top⟩ := ofExpr_of_split split symbolic others
  have above : (r / s).num ≠ 0 := Rat.num_ne_zero.mpr (div_ne_zero notZero nonzero)
  have below : ((r / s).den : ℤ) ≠ 0 := Int.natCast_ne_zero.mpr (r / s).den_nz
  unfold Cancellation.ofTerms
  rw [top, bottom]
  simp only [netCoefficients, netPowers_nil]
  split
  · exact whole
  split
  · exact whole
  split
  · exact inner.toExpr_asPower above
  · exact .quotient (inner.toExpr_asPower above) (isScalar_toExpr below)

/-- A quotient by a scalar of what is no quotient itself. -/
theorem Exposed.ofFlat_of_whole (plain : R.Plain) {n d : Expr}
    (h : R.Exposed atOnce differences false n) (scalar : d.IsScalar) :
    R.Exposed atOnce differences false (Cancellation.ofFlat ⟨n, d⟩).expr := by
  have none : Expr.constantQuotient? n d = Option.none := by
    rw [Expr.constantQuotient?, h.not_complex, plain.not_complex (defined_of_isScalar scalar)]
    rfl
  unfold Cancellation.ofFlat
  rw [not_isZero_of_isScalar scalar, none]
  simp only [Bool.false_eq_true, ↓reduceIte]
  split
  · exact .quotient h scalar
  rename_i known
  split
  · rename_i x y
    rw [h.eq_nan_of_number] at known
    exact absurd rfl known
  · exact h.ofTerms scalar

/-- Inner divisors move below the bar, until what stands above it is a quotient by zero or no
quotient. -/
theorem Exposed.ofFlat (plain : R.Plain) {n d : Expr}
    (h : R.Exposed (fun _ => False) False sums n) (alone : sums = false) (scalar : d.IsScalar)
    (rational : NetsRationally n d) :
    R.Exposed (fun _ => False) False false (Cancellation.ofFlat (Quotient.flatten n d)).expr := by
  have bare {e : Expr} (here : e.IsScalar) : e.sides? .divide = none := by
    rcases here.cases with ⟨r, -, rfl⟩ | ⟨xs, rfl, -⟩
    · rfl
    · exact Expr.sides?_of_ne (by decide) xs
  induction h generalizing d with
  | nan =>
    rw [flatten_quotient_of_sides rfl (bare scalar)]
    exact .ofFlat_of_whole plain .nan scalar
  | @divided _ n b divisor zero dividend =>
    have inner : Quotient.flatten (.div n b) d = Quotient.flatten n (b.times d) := by
      rw [Expr.div, Quotient.flatten]
    obtain ⟨number, nonzero⟩ := dividend.resolve_right id
    have below : R.ZeroDivided n (b.times d) := by
      refine ⟨number, defined_times divisor (defined_of_isScalar scalar), nonzero, ?_⟩
      rw [val_times divisor (defined_of_isScalar scalar), zero, zero_mul]
    rw [NetsRationally, inner] at rational
    rw [inner]
    rcases ofFlat_zeroDivided plain.real below rational with ⟨u, v, same, again⟩ | same
    · rw [same]
      exact again.exposed
    · rw [same]
      exact exposed_undefinedQuotient
  | reciprocal base zero exponent value negative =>
    rw [flatten_quotient_of_sides rfl (bare scalar)]
    exact .ofFlat_of_whole plain (.reciprocal base zero exponent value negative) scalar
  | @quotient _ n b h inside ih =>
    have inner : Quotient.flatten (.div n b) d = Quotient.flatten n (b.times d) := by
      rw [Expr.div, Quotient.flatten]
    rw [NetsRationally, inner] at rational
    rw [inner]
    exact ih rfl (inside.times scalar) rational
  | multiple split h others =>
    subst alone
    rw [flatten_quotient_of_sides (Expr.sides?_of_ne (by decide) _) (bare scalar)]
    exact .ofFlat_of_whole plain (.multiple split h others) scalar
  | sum => cases alone
  | minuend any => exact any.elim
  | subtrahend any => exact any.elim

theorem prod_ne_zero_of_numerals {xs : List Expr} (h : ∀ x ∈ xs, x.IsNonzeroNumeral) :
    (xs.map R.val).prod ≠ 0 := by
  refine List.prod_ne_zero fun zero => ?_
  obtain ⟨x, member, value⟩ := List.mem_map.mp zero
  obtain ⟨r, nonzero, rfl⟩ := h x member
  rw [val_exact, Rat.cast_eq_zero] at value
  exact nonzero value

/-- The bar of a factor goes over the whole product: the numerals join what stands above it. -/
theorem Exposed.raiseBar {xs ys : List Expr} {x : Expr} (split : xs.Perm (x :: ys))
    (h : R.Exposed (fun _ => False) False sums x) (others : ∀ y ∈ ys, y.IsNonzeroNumeral) :
    R.Exposed (fun _ => False) False sums (raiseBar xs).expr := by
  unfold SymbolicAlgebra.raiseBar
  split
  · exact .multiple split h others
  · rename_i before q after found
    have parts := eq_append_of_splitAtQuotient found
    have own : x = q.toExpr := by
      have member : q.toExpr ∈ x :: ys := split.mem_iff.mp (by rw [parts]; simp)
      rcases List.mem_cons.mp member with same | numeral
      · exact same.symm
      · obtain ⟨r, -, same⟩ := others _ numeral
        cases same
    subst own
    rw [parts] at split
    have numerals : ∀ y ∈ before ++ after, y.IsNonzeroNumeral := fun y member =>
      others y ((List.perm_middle.symm.trans split).cons_inv.mem_iff.mp member)
    have moved : (before ++ q.num.factors ++ after).Perm (q.num.factors ++ (before ++ after)) := by
      rw [← List.append_assoc]
      exact List.perm_append_comm.append_right after
    show R.Exposed _ _ sums (.div (.product ((before ++ q.num.factors ++ after).filter fun x =>
      !x.isOne)) q.den)
    cases h with
    | divided divisor zero dividend =>
      obtain ⟨number, nonzero⟩ := dividend.resolve_right id
      have factors : ∀ f ∈ before ++ q.num.factors ++ after, R.Defined f := by
        intro f member
        rcases List.mem_append.mp (moved.mem_iff.mp member) with left | right
        · exact (defined_factors _).mpr number f left
        · exact defined_of_isNonzeroNumeral (numerals f right)
      refine .divided divisor zero (.inl ⟨(defined_product _).mpr (defined_filter factors), ?_⟩)
      rw [val_product, prod_drop_ones factors, (moved.map R.val).prod_eq, List.map_append,
        List.prod_append, prod_factors]
      exact mul_ne_zero nonzero (prod_ne_zero_of_numerals numerals)
    | quotient inner scalar =>
      obtain ⟨y, zs, among, here, units⟩ := inner.exists_factor
      refine .quotient (.drop_ones (moved.trans (among.append_right _)) here ?_) scalar
      exact List.forall_mem_append.mpr ⟨units, numerals⟩

theorem exposure_reduceQuotients (plain : R.Plain) (law : R.LawfulUnit) :
    R.Exposure reduceQuotientsNode QuotientNetsRationally (fun _ => False) False
      (R.Exposed (fun _ => False) False) where
  inSum := Exposed.inSum
  nan := .nan
  numeral _ := rfl
  scalars {xs} numerals := by
    have none : splitAtQuotient xs = Option.none := by
      cases found : splitAtQuotient xs with
      | none => rfl
      | some parts =>
        obtain ⟨before, q, after⟩ := parts
        rw [eq_append_of_splitAtQuotient found] at numerals
        obtain ⟨r, -, same⟩ := numerals q.toExpr (by simp)
        cases same
    show (raiseBar xs).expr.IsScalar
    unfold raiseBar
    rw [none]
    exact numerals
  keeps e _ := reduceQuotientsNode_keeps law e
  divided {n d} rational h := by
    show R.Exposed _ _ false (Cancellation.ofFlat (Quotient.flatten n d)).expr
    rcases ofFlat_zeroDivided plain.real h (rational (n, d) rfl) with ⟨u, v, same, again⟩ | same
    · rw [same]
      exact again.exposed
    · rw [same]
      exact exposed_undefinedQuotient
  atOnce _ seen := seen.elim
  reciprocal base zero exponent value negative := .reciprocal base zero exponent value negative
  quotient {n d} rational h scalar := h.ofFlat plain rfl scalar (rational (n, d) rfl)
  multiple split h others := h.raiseBar split others
  sum := .sum
  minuend := nofun
  subtrahend := nofun

/-! ## Factored sides -/

omit [CharZero K] in
/-- What stands above a bar and holds the division has no sum to be factored. -/
theorem Exposed.holdsSum_eq_false {e : Expr} (h : R.Exposed atOnce differences sums e)
    (alone : sums = false) : e.holdsSum = false := by
  have number {y : Expr} (numeral : y.IsNonzeroNumeral) : y.isNode .add = false := by
    obtain ⟨r, -, rfl⟩ := numeral
    rfl
  have here {y : Expr} (exposed : R.Exposed atOnce differences false y) :
      y.isNode .add = false := by
    cases exposed <;> rfl
  subst alone
  cases h with
  | multiple split h others =>
    refine List.any_eq_false.mpr fun y member => ?_
    rcases List.mem_cons.mp (split.mem_iff.mp member) with rfl | numeral
    · simp [here h]
    · simp [number (others y numeral)]
  | _ => rfl

theorem holdsSum_of_isScalar {e : Expr} (h : e.IsScalar) : e.holdsSum = false := by
  rcases h.cases with ⟨r, -, rfl⟩ | ⟨xs, rfl, numerals⟩
  · rfl
  · refine List.any_eq_false.mpr fun y member => ?_
    obtain ⟨r, -, rfl⟩ := numerals y member
    nofun

theorem reduceFactoredNode_zeroDivided (plain : R.Plain) {simplify : Expr → Expr}
    (keeps : ∀ e, R.Keeps e (simplify e)) {n d : Expr} (h : R.ZeroDivided n d)
    (once : SidesOnce simplify (.div n d)) (rational : FactoredNetsRationally simplify (.div n d)) :
    R.Exposed atOnce differences false (reduceFactoredNode simplify (.div n d)).expr := by
  rcases reduceFactoredNode_cases simplify n d with same | ⟨kept, cancelled⟩
  · rw [same]
    exact h.exposed
  · obtain ⟨upper, lower⟩ := sides_keep plain.only keeps once kept
    rw [cancelled]
    rcases ofFlat_zeroDivided plain.real (h.of_keeps upper lower) (rational (n, d) rfl kept) with
      ⟨u, v, same, again⟩ | same
    · exact same ▸ again.exposed
    · exact same ▸ exposed_undefinedQuotient

theorem exposure_reduceFactored (plain : R.Plain) (law : R.LawfulUnit) {simplify : Expr → Expr}
    (keeps : ∀ e, R.Keeps e (simplify e)) :
    R.Exposure (reduceFactoredNode simplify)
      (fun e => SidesOnce simplify e ∧ FactoredNetsRationally simplify e) (fun _ => False) False
      (R.Exposed (fun _ => False) False) where
  inSum := Exposed.inSum
  nan := .nan
  numeral _ := rfl
  scalars numerals := numerals
  keeps e sound := reduceFactoredNode_keeps plain.only law keeps e sound.1
  divided sound h := reduceFactoredNode_zeroDivided plain keeps h sound.1 sound.2
  atOnce _ seen := seen.elim
  reciprocal base zero exponent value negative := .reciprocal base zero exponent value negative
  quotient {n d} _ h scalar := by
    have same : (reduceFactoredNode simplify (.div n d)).expr = .div n d := by
      unfold reduceFactoredNode
      dsimp only [Expr.div]
      rw [h.holdsSum_eq_false rfl, holdsSum_of_isScalar scalar]
      simp [Step.same]
    rw [same]
    exact .quotient h scalar
  multiple := .multiple
  sum := .sum
  minuend := nofun
  subtrahend := nofun

/-! ## Differences -/

omit [CharZero K] in
theorem Exposed.subtractFrom {run xs zs : List Expr} {x : Expr}
    (split : (run ++ xs).Perm (x :: zs)) (h : R.Exposed atOnce True true x)
    (others : ∀ z ∈ zs, R.Defined z) : R.Exposed atOnce True true (subtractFrom run xs) := by
  induction xs generalizing run zs x with
  | nil =>
    rw [List.append_nil] at split
    exact .of_sum split h others
  | cons y ys ih =>
    unfold SymbolicAlgebra.subtractFrom
    split
    · rcases perm_append_cases split with ⟨rest, front, same⟩ | ⟨rest, back, same⟩
      · obtain ⟨inRun, below⟩ := List.forall_mem_append.mp fun z member =>
          others z (same.mem_iff.mpr member)
        obtain ⟨here, later⟩ := List.forall_mem_cons.mp below
        exact ih (List.Perm.refl _)
          (.minuend trivial (.of_sum front h inRun) (unsigned_spec here).1) later
      · obtain ⟨inRun, below⟩ := List.forall_mem_append.mp fun z member =>
          others z (same.mem_iff.mpr member)
        have whole := (defined_sum run).mpr inRun
        rcases perm_cons_cases back with ⟨rfl, moved⟩ | ⟨ws, head, tail⟩
        · exact ih (List.Perm.refl _) (.subtrahend trivial whole h.unsigned) fun z member =>
            below z (moved.mem_iff.mp member)
        · obtain ⟨here, later⟩ := List.forall_mem_cons.mp fun z member =>
            below z (head.mem_iff.mpr member)
          refine ih ((tail.cons _).trans (List.Perm.swap _ _ _)) h
            (List.forall_mem_cons.mpr ⟨?_, later⟩)
          exact (defined_sub _ _).mpr ⟨whole, (unsigned_spec here).1⟩
    · exact ih (by rwa [List.append_assoc]) h others

omit [CharZero K] in
theorem Exposed.sumToDifference {xs ys : List Expr} {x : Expr} (split : xs.Perm (x :: ys))
    (h : R.Exposed atOnce True true x) (others : ∀ y ∈ ys, R.Defined y) :
    R.Exposed atOnce True true (sumToDifference (.node .add xs)).expr := by
  match xs, split with
  | [], split | [_], split => exact .sum split h others
  | a :: b :: rest, split =>
    have moved := bringPositiveForward_perm (a :: b :: rest)
    unfold SymbolicAlgebra.sumToDifference
    dsimp only
    split
    · rename_i first later _ same
      rw [same] at moved
      split
      · have started : ([first] ++ later).Perm (x :: ys) := moved.trans split
        exact .subtractFrom started h others
      · exact .sum (moved.trans split) h others
    · rename_i same
      rw [same] at moved
      exact .sum (moved.trans split) h others

omit [CharZero K] in
theorem rearranging_toDifferences :
    R.Rearranging SymbolicAlgebra.sumToDifference atOnce (fun _ => True) True True where
  keeps := sumToDifference_keeps
  next _ _ := trivial
  scalars numerals := numerals
  multiple := .multiple
  sum := Exposed.sumToDifference
  minuend _ _ _ h other := .minuend trivial h other
  subtrahend _ _ _ other h := .subtrahend trivial other h

end Reading

end SymbolicAlgebra
