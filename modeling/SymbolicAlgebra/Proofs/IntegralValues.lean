import SymbolicAlgebra.Proofs.IntegralRuns
import SymbolicAlgebra.Proofs.PowerReductions
import SymbolicAlgebra.Proofs.TableSlopes
import SymbolicAlgebra.Proofs.VariableChanges

/-! What the search for an antiderivative finds is one, by tools that keep values, wherever the trees
that it rests on have values: one lemma for each strategy, and an induction on the depth. -/
namespace SymbolicAlgebra

open DifferentialReading

variable {K : Type*} [Field K] {M : DifferentialReading K} {T : IntegrationTools}
  {x u : String} {c v w z : K} {e f : Expr}

namespace DifferentialReading

/-! ## Tools that keep values -/

/-- The tools keep values, and the simplifier names, whatever the values of the identifiers are;
Euler's number stays what it is. What may be read is read in words. -/
structure KeptBy (M : DifferentialReading K) (T : IntegrationTools) (x : String) : Prop where
  names : AddsNoNames T.simplify
  reads {unknown : String} {e : Expr} :
    T.reads unknown e = true → Polynomial.readInWords T.simplify unknown e = true
  simplify {ident : String → K} : (x ≠ "e" → ident "e" = M.ident "e") →
    KeepsValues { M with ident } T.simplify
  multiplyOut {ident : String → K} : (x ≠ "e" → ident "e" = M.ident "e") →
    KeepsValues { M with ident } fun e => (T.multiplyOut e).expr
  pullFactor {ident : String → K} : (x ≠ "e" → ident "e" = M.ident "e") →
    KeepsValues { M with ident } fun e => (T.pullFactor e).expr

theorem KeptBy.keeps (kept : M.KeptBy T x) : M.KeepsValues T.simplify :=
  kept.simplify fun _ => rfl

theorem KeptBy.assign (kept : M.KeptBy T x) (other : "e" ≠ u) (v : K) :
    (M.assign u v).KeepsValues T.simplify :=
  kept.simplify fun _ => Function.update_of_ne other v M.ident

theorem KeptBy.change (kept : M.KeptBy T x) (other : "e" ≠ u) (v : K) :
    (M.change x u v).KeptBy T u := by
  have allowed {ident : String → K} (same : u ≠ "e" → ident "e" = (M.change x u v).ident "e")
      (different : x ≠ "e") : ident "e" = M.ident "e" := by
    rw [same other.symm, ident_change_e other, if_neg different]
  have elsewhere {ident : String → K} {rule : Expr → Expr}
      (keeps : KeepsValues { M with ident } rule) :
      KeepsValues { M.change x u v with ident } rule := fun e w h => by
    have same (e : Expr) : value? { M.change x u v with ident } e = value? { M with ident } e :=
      value?_congr (M := { M.change x u v with ident }) (N := { M with ident }) rfl e
    rw [same] at h ⊢
    exact keeps e w h
  exact {
    names := kept.names
    reads := kept.reads
    simplify := fun same => elsewhere (kept.simplify (allowed same))
    multiplyOut := fun same => elsewhere (kept.multiplyOut (allowed same))
    pullFactor := fun same => elsewhere (kept.pullFactor (allowed same)) }

theorem KeptBy.trusts (kept : M.KeptBy T x) : M.Trusts T.forRatios where
  simplify := kept.keeps _ _
  differentiate found := by cases found
  integrate found := by cases found

/-- All of the trees have values. -/
def Valued (M : DifferentialReading K) (ts : List Expr) : Prop := ∀ t ∈ ts, (M.value? t).isSome

theorem valued_append {ts ss : List Expr} : M.Valued (ts ++ ss) ↔ M.Valued ts ∧ M.Valued ss :=
  List.forall_mem_append

theorem valued_cons {t : Expr} {ts : List Expr} :
    M.Valued (t :: ts) ↔ (∃ v, M.value? t = some v) ∧ M.Valued ts := by
  rw [Valued, List.forall_mem_cons, Option.isSome_iff_exists]
  rfl

theorem values?_append {ts ss : List Expr} {vs : List K} (h : M.values? (ts ++ ss) = some vs) :
    ∃ ps qs, M.values? ts = some ps ∧ M.values? ss = some qs ∧ ps ++ qs = vs := by
  induction ts generalizing vs with
  | nil => exact ⟨[], vs, rfl, h, rfl⟩
  | cons t ts ih =>
    obtain ⟨p, hp, rest, later, rfl⟩ := values?_cons.mp h
    obtain ⟨ps, qs, hps, hqs, rfl⟩ := ih later
    exact ⟨p :: ps, qs, values?_cons.mpr ⟨p, hp, ps, hps, rfl⟩, hqs, rfl⟩

end DifferentialReading

/-- The run is right: by the rules of calculus, with tools that keep values, its result is an
antiderivative wherever its trees have values. -/
def IntegralRun.Right (K : Type*) [Field K] (T : IntegrationTools) (x : String) (e : Expr)
    (run : IntegralRun) : Prop :=
  ∀ M : DifferentialReading K, M.Elementary x → M.KeptBy T x → M.Valued run.trees →
    M.Derives run.result e

/-- Whatever the search finds is right. -/
def IntegralSearch.Right (K : Type*) [Field K] (T : IntegrationTools) (search : IntegralSearch) :
    Prop :=
  ∀ ⦃x byParts e r⦄, search x byParts e = some r → r.1.Right K T x e

variable {deeper : IntegralSearch} {run : IntegralRun} {byParts : Bool}

theorem IntegralSearch.Right.run? (right : deeper.Right K T)
    (found : deeper.run? x byParts e = some run) : run.Right K T x e := by
  obtain ⟨r, answer, rfl⟩ := Option.map_eq_some_iff.mp found
  exact right answer

/-- The result of a part of a run, with its derivative. -/
theorem IntegralRun.Right.slope (right : run.Right K T x e) (laws : M.Elementary x)
    (kept : M.KeptBy T x) (valued : M.Valued run.all) (he : M.value? e = some v) :
    ∃ z, M.value? run.result = some z ∧ M.D z = v := by
  obtain ⟨⟨z, hz⟩, trees⟩ := valued_cons.mp valued
  exact ⟨z, hz, (right M laws kept trees z v hz he).symm⟩

namespace IntegrationTools

/-! ## Reduction formulas, products of sines and cosines -/

section Strategies

variable (right : deeper.Right K T)

include right in
theorem right_reduced [CharZero K] (found : reducedRun deeper x e = some run) :
    run.Right K T x e := by
  intro M laws kept valued v w hv hw
  obtain ⟨⟨f, n⟩, power, found⟩ := Option.bind_eq_some_iff.mp found
  obtain ⟨r, formula, found⟩ := Option.bind_eq_some_iff.mp found
  obtain ⟨c, b, l, weight, constant, hb, hl, slope⟩ :=
    lowers_of_functionPower? laws power formula hw
  split at found
  · rename_i zero
    obtain rfl := Option.some.inj found
    obtain rfl := Option.some.inj (hb.symm.trans hv)
    rw [slope, laws.exact.readsNumerals.value?_isZero zero weight]
    ring
  · obtain ⟨rest, lower, found⟩ := Option.bind_eq_some_iff.mp found
    obtain rfl := Option.some.inj found
    obtain ⟨z, hz, rfl⟩ := (right.run? lower).slope laws kept valued hl
    obtain ⟨b', hb', p, hp, rfl⟩ := value?_plus.mp hv
    obtain rfl := Option.some.inj (hb.symm.trans hb')
    obtain rfl := Option.some.inj ((laws.exact.readsNumerals.value?_mul weight hz).symm.trans hp)
    rw [map_add, slope, M.D.leibniz, constant, smul_eq_mul, smul_zero, add_zero]
    ring

include right in
theorem right_sineProduct [CharZero K] (found : T.sineProductRun deeper x e = some run) :
    run.Right K T x e := by
  intro M laws kept valued v w hv hw
  obtain ⟨sum, half, lower⟩ := Option.bind_eq_some_iff.mp found
  refine right.run? lower M laws kept valued v w hv ?_
  unfold sineSumUsing? at half
  split at half
  · obtain ⟨p, hp, _, rest, rfl⟩ := value?_multiply_cons.mp hw
    obtain ⟨q, hq, _, none, rfl⟩ := value?_multiply_cons.mp rest
    obtain rfl := value?_multiply_nil.mp none
    rw [mul_one]
    exact value?_sineProduct laws kept.keeps half hp hq
  · cases half

/-! ## Rational functions -/

/-- The slopes of the parts that there are add up; a part of zero is none. -/
theorem D_unlessZero (laws : M.Elementary x) {part : Expr} {found? : Option IntegralRun}
    {runs : List IntegralRun} {zs : List K} (found : unlessZero part found? = some runs)
    (hp : M.value? part = some v) (zero : v = 0 → w = 0)
    (each : ∀ f z, found? = some f → f ∈ runs → M.value? f.result = some z → M.D z = w)
    (hz : M.values? (runs.map IntegralRun.result) = some zs) : M.D zs.sum = w := by
  unfold unlessZero at found
  split at found
  · rename_i none
    obtain rfl := Option.some.inj found
    obtain rfl := Option.some.inj hz
    rw [zero (laws.exact.readsNumerals.value?_isZero none hp), List.sum_nil, map_zero]
  · obtain ⟨f, answer, rfl⟩ := Option.map_eq_some_iff.mp found
    obtain ⟨z, hf, rest, nil, rfl⟩ := values?_cons.mp hz
    obtain rfl := Option.some.inj nil
    rw [List.sum_singleton]
    exact each f z answer (List.mem_singleton_self f) hf

include right in
/-- The remainder over the divisor. Over a linear divisor the remainder is a constant. -/
theorem D_remainderRun {d q r : Expr} {degree : ℤ} (laws : M.Elementary x) (kept : M.KeptBy T x)
    (found : T.remainderRun deeper x d q r degree = some run) (valued : M.Valued run.trees)
    (known : d.degree? [x] = some degree) (read : T.reads x d = true)
    (hd : M.value? d = some w) (nonzero : w ≠ 0)
    (hr : M.value? r = some v) (constant : d.degree? [x] = some 1 → M.D v = 0)
    (hz : M.value? run.result = some z) : M.D z = v / w := by
  unfold remainderRun at found
  split at found
  · rename_i linear
    rw [linear] at known
    obtain ⟨p, polynomial, rfl⟩ := Option.map_eq_some_iff.mp found
    exact D_constant_over_linear laws kept.keeps known (kept.reads read) polynomial hd hr
      (constant known) hz
  · split at found
    · cases found
    · exact (right.run? found M laws kept valued z _ hz
        (value?_div.mpr ⟨v, hr, w, hd, nonzero, rfl⟩)).symm

include right in
theorem right_divided (found : T.dividedRun deeper x e = some run) : run.Right K T x e := by
  intro M laws kept valued z t hz ht
  unfold dividedRun at found
  split at found
  case h_2 => cases found
  case h_1 n d =>
    rw [Option.ite_none_right_eq_some, Bool.and_eq_true] at found
    obtain ⟨⟨readN, readD⟩, found⟩ := found
    obtain ⟨degree, known, found⟩ := Option.bind_eq_some_iff.mp found
    split at found
    · cases found
    · obtain ⟨-, -, found⟩ := Option.bind_eq_some_iff.mp found
      obtain ⟨⟨q, r⟩, divided, found⟩ := Option.bind_eq_some_iff.mp found
      obtain ⟨whole, first, found⟩ := Option.bind_eq_some_iff.mp found
      obtain ⟨proper, second, found⟩ := Option.bind_eq_some_iff.mp found
      obtain rfl := Option.some.inj found
      obtain ⟨v, hn, w, hd, nonzero, rfl⟩ := value?_div.mp ht
      obtain ⟨⟨l, lead⟩, trees⟩ := valued_cons.mp valued
      obtain ⟨a, b, hq, hr, rfl, constant⟩ :=
        value?_polynomialQuotient laws kept.keeps divided ⟨kept.reads readN, kept.reads readD⟩ hn hd
          (by rw [lead]; rfl)
      have within {f : IntegralRun} (member : f ∈ whole ++ proper) : M.Valued f.trees :=
        fun t inside => trees t (List.mem_flatMap.mpr ⟨f, member, inside⟩)
      obtain ⟨zs, hzs, rfl⟩ := value?_sum.mp hz
      rw [List.map_append] at hzs
      obtain ⟨ps, qs, hps, hqs, rfl⟩ := values?_append hzs
      have above : M.D ps.sum = a :=
        D_unlessZero laws first hq id (fun f z answer member hz =>
          (right.run? answer M laws kept (within (List.mem_append_left _ member)) z a hz hq).symm)
          hps
      have below : M.D qs.sum = b / w :=
        D_unlessZero laws second hr (fun zero => by rw [zero, zero_div])
          (fun f z answer member hz => D_remainderRun right laws kept answer
            (within (List.mem_append_right _ member)) known readD hd nonzero hr constant hz) hqs
      rw [List.sum_append, map_add, above, below]
      field_simp

/-! ## Substitution, expansion -/

theorem value?_inOldSymbol {candidate : Expr} (hc : M.value? candidate = some c)
    (different : u ≠ x) (t : Expr) :
    M.value? (inOldSymbol x u candidate t) = (M.change x u c).value? t := by
  have swapped : (M.assign x 0).assign u c = (M.assign u c).assign x 0 := by
    unfold assign
    rw [Function.update_comm different]
  rw [inOldSymbol, value?_replaceIdent hc, value?_replaceIdent value?_zero, value?_change, swapped]

include right in
theorem right_substituted? {candidate : Expr} {limit : Nat}
    (member : candidate ∈ e.candidates x limit)
    (found : T.substitutedRun? deeper x e candidate = some run) : run.Right K T x e := by
  intro M laws kept valued
  obtain ⟨read, found⟩ := Option.ite_none_right_eq_some.mp found
  obtain ⟨words, -⟩ := (Bool.and_eq_true _ _).mp (kept.reads read)
  obtain ⟨s, substituted, found⟩ := Option.bind_eq_some_iff.mp found
  obtain ⟨f, lower, rfl⟩ := Option.map_eq_some_iff.mp found
  obtain ⟨lower, free⟩ := Option.filter_eq_some_iff.mp lower
  obtain ⟨d, -, raw, symbol, -⟩ := exists_of_substitutionUsing? substituted
  obtain ⟨absent, -⟩ := names_of_substitutionUsing? substituted
  -- The candidate has no names but those of the integrand, so the new symbol is new to it too.
  obtain ⟨fresh, -⟩ := namesIn_candidates (Expr.namesIn_others.mpr absent) candidate member
  obtain ⟨-, dependent⟩ := namesIn_candidates (fun _ occurs => occurs) candidate member
  have fresh := Expr.namesIn_others.mp fresh
  have different : s.symbol ≠ x := by
    rintro rfl
    rw [fresh] at dependent
    cases dependent
  have other : "e" ≠ s.symbol := by
    obtain ⟨-, n, same⟩ := freshName_spec e.identifiers
    rw [symbol, same]
    exact substitutionName_ne_e n
  obtain ⟨⟨c, hc⟩, valued⟩ := valued_cons.mp valued
  rw [raw] at valued
  obtain ⟨⟨_, reciprocal⟩, valued⟩ := valued_cons.mp valued
  obtain ⟨slope, hd, nonzero, -⟩ := value?_reciprocal.mp reciprocal
  obtain rfl := (derives_rules laws.toLawful).rawDerivative raw c slope hc hd
  have inner : (M.change x s.symbol c).Valued f.all := fun t inside => by
    rw [← value?_inOldSymbol hc different]
    exact valued _ (List.mem_map_of_mem inside)
  have laws' := laws.change other nonzero
  have kept' := kept.change other c
  have free : f.result.mentions x = false := by simpa using free
  refine derives_substituted laws kept.keeps kept.names (kept.assign other c) words substituted fresh
    different hc raw (by rw [hd]; rfl) nonzero free ?_ ?_
  · rw [value?_replaceIdent hc, ← value?_change_of_free free different]
    exact inner _ List.mem_cons_self
  · exact right.run? lower _ laws' kept' fun t inside => inner t (List.mem_cons_of_mem _ inside)

include right in
theorem right_substituted {limit : Nat} (found : T.substitutedRun deeper x limit e = some run) :
    run.Right K T x e := by
  obtain ⟨candidate, member, found⟩ := List.exists_of_findSome?_eq_some found
  exact right_substituted? right member found

include right in
theorem right_expanded (found : T.expandedRun deeper x byParts e = some run) :
    run.Right K T x e := by
  intro M laws kept valued v w hv hw
  unfold expandedRun at found
  dsimp only at found
  split at found
  · split at found
    · have distributed := kept.multiplyOut (fun _ => rfl) e w hw
      exact right.run? found M laws kept valued v w hv (kept.keeps _ _ distributed)
    · cases found
  · cases found

end Strategies

/-! ## Parts -/

section Searches

variable {searches : Nat → IntegralSearch} (right : ∀ n, (searches n).Right K T)

theorem D_partsStepRun? (right : deeper.Right K T) (laws : M.Elementary x) (kept : M.KeptBy T x)
    {step : PartsStep} {trees : List Expr}
    (found : T.partsStepRun? deeper x e = some (step, trees)) (valued : M.Valued trees)
    (he : M.value? e = some v) :
    ∃ b r, M.value? step.boundary = some b ∧ M.value? step.residual = some r ∧ M.D b = v + r := by
  simp only [partsStepRun?, Option.bind_eq_bind, Option.bind_eq_some_iff, Option.some.injEq,
    Prod.mk.injEq] at found
  obtain ⟨parts, chosen, f, integrated, slope, raw, rfl, rfl⟩ := found
  obtain ⟨⟨b, hb⟩, valued⟩ := valued_cons.mp valued
  obtain ⟨⟨d, hd⟩, valued⟩ := valued_cons.mp valued
  have hd' := kept.keeps _ _ hd
  have differentiated : M.Derives parts.u (T.simplify slope) := by
    intro p d' hp h
    obtain rfl := Option.some.inj (hd'.symm.trans h)
    exact (derives_rules laws.toLawful).rawDerivative (eq_ok_of_toOption raw) p d hp hd
  obtain ⟨r, hr, derivative⟩ := D_product_of_parts chosen he hb hd' differentiated
    (right.run? integrated M laws kept valued)
  exact ⟨b, r, hb, kept.keeps _ _ hr, derivative⟩

include right in
/-- The equation that integration by parts arrives at holds for the derivation. -/
theorem D_partsEquationRun (laws : M.Elementary x) (kept : M.KeptBy T x) {integrand : Expr}
    (hi : M.value? integrand = some w) {budget : Nat} {run : PartsRun}
    (found : T.partsEquationRun searches x integrand budget e = some run)
    (valued : M.Valued run.trees) (he : M.value? e = some v) :
    ∃ k m, M.value? run.known = some k ∧ M.value? run.multiple = some m ∧ M.D m = 0 ∧
      M.D k = v - m * w := by
  have reads := laws.exact.readsNumerals
  induction budget generalizing e run v with
  | zero => cases found
  | succ budget ih =>
    obtain ⟨⟨step, trees⟩, taken, found⟩ := Option.bind_eq_some_iff.mp found
    dsimp only at found
    have boundary (valued : M.Valued trees) :=
      D_partsStepRun? (right budget) laws kept taken valued he
    split at found
    · rename_i zero
      obtain rfl := Option.some.inj found
      obtain ⟨b, r, hb, hr, derivative⟩ := boundary valued
      refine ⟨b, 0, hb, value?_zero, map_zero M.D, ?_⟩
      rw [derivative, reads.value?_isZero zero hr]
      ring
    split at found
    · rename_i k ratio
      obtain rfl := Option.some.inj found
      obtain ⟨⟨_, reciprocal⟩, valued⟩ := valued_cons.mp valued
      obtain ⟨w', hw', nonzero, -⟩ := value?_reciprocal.mp reciprocal
      obtain rfl := Option.some.inj (hi.symm.trans hw')
      obtain ⟨b, r, hb, hr, derivative⟩ := boundary valued
      have quotient := value?_ratioToUsing? laws.exact kept.trusts ratio hr hi nonzero
      have constant := D_value_of_free laws.toLawful (free_ratioToUsing? ratio) quotient
      refine ⟨b, -(r / w), hb, reads.value?_negate quotient, ?_, ?_⟩
      · rw [map_neg, constant, neg_zero]
      · rw [derivative, neg_mul, div_mul_cancel₀ _ nonzero, sub_neg_eq_add]
    split at found
    · rename_i rest leftover
      obtain rfl := Option.some.inj found
      obtain ⟨after, valued⟩ := valued_append.mp valued
      obtain ⟨b, r, hb, hr, derivative⟩ := boundary valued
      obtain ⟨z, hz, lower⟩ := ((right budget).run? leftover).slope laws kept after hr
      refine ⟨b - z, 0, value?_sub.mpr ⟨b, hb, z, hz, rfl⟩, value?_zero, map_zero M.D, ?_⟩
      rw [map_sub, derivative, lower]
      ring
    · obtain ⟨next, again, found⟩ := Option.bind_eq_some_iff.mp found
      obtain rfl := Option.some.inj found
      obtain ⟨after, valued⟩ := valued_append.mp valued
      obtain ⟨b, r, hb, hr, derivative⟩ := boundary valued
      obtain ⟨a, i, scale, constant, hinner, rfl⟩ := value?_leftover laws.exact laws.toLawful hr
      obtain ⟨k, m, hk, hm, fixed, equation⟩ := ih again after hinner
      refine ⟨b - a * k, -a * m, value?_sub.mpr ⟨b, hb, _, reads.value?_mul scale hk, rfl⟩,
        reads.value?_mul (reads.value?_negate scale) hm, ?_, ?_⟩
      · rw [M.D.leibniz, map_neg, constant, fixed, neg_zero, smul_zero, smul_zero, add_zero]
      · rw [map_sub, derivative, M.D.leibniz, constant, equation, smul_eq_mul, smul_eq_mul]
        ring

include right in
theorem right_byParts {budget : Nat} (found : T.byPartsRun searches x budget e = some run) :
    run.Right K T x e := by
  intro M laws kept valued z w hz hw
  obtain ⟨equation, parts, found⟩ := Option.bind_eq_some_iff.mp found
  dsimp only at found
  split at found
  · rename_i zero
    obtain rfl := Option.some.inj found
    obtain ⟨k, m, hk, hm, -, slope⟩ := D_partsEquationRun right laws kept hw parts valued hw
    obtain rfl := Option.some.inj (hk.symm.trans hz)
    rw [slope, laws.exact.readsNumerals.value?_isZero zero (kept.keeps _ _ hm)]
    ring
  · simp only [Option.ite_none_left_eq_some, Option.some.injEq] at found
    obtain ⟨-, rfl⟩ := found
    obtain ⟨k, m, hk, hm, constant, slope⟩ := D_partsEquationRun right laws kept hw parts valued hw
    obtain ⟨k', hk', d, hd, solvable, rfl⟩ := value?_div.mp hz
    obtain rfl := Option.some.inj (hk.symm.trans hk')
    have divisor :=
      kept.keeps _ _ (value?_sub.mpr ⟨1, value?_one, m, kept.keeps _ _ hm, rfl⟩)
    obtain rfl := Option.some.inj (divisor.symm.trans hd)
    exact (D_solved constant slope solvable).symm

/-! ## Factoring, and all strategies -/

include right in
theorem right_factored {limit budget : Nat}
    (found : T.factoredRun searches x limit byParts budget e = some run) : run.Right K T x e := by
  intro M laws kept valued z w hz hw
  unfold factoredRun at found
  dsimp only at found
  split at found
  · split at found
    · cases found
    · have factored := kept.pullFactor (fun _ => rfl) e w hw
      rcases (Option.orElse_eq_some ..).mp found with substituted | ⟨-, parts⟩
      · exact right_substituted (right _) substituted M laws kept valued z w hz factored
      · split at parts
        · exact right_byParts right parts M laws kept valued z w hz factored
        · cases parts
  · cases found

include right in
theorem right_whole [CharZero K] {options : IntegrationOptions} {budget : Nat}
    {r : IntegralRun × Strategy}
    (found : T.wholeRun options searches budget x byParts e = some r) : r.1.Right K T x e := by
  have deeper := right budget
  unfold wholeRun at found
  dsimp only at found
  simp only [Option.orElse_eq_orElse, Option.orElse_eq_or, Option.or_eq_some_iff,
    Option.map_eq_some_iff] at found
  rcases found with ⟨_, ⟨f, table, rfl⟩, rfl⟩ | ⟨-, ⟨f, reduced | ⟨-, product⟩, rfl⟩ |
    ⟨-, ⟨f, divided, rfl⟩ | ⟨-, ⟨f, substituted, rfl⟩ | ⟨-, ⟨f, expanded, rfl⟩ |
    ⟨-, ⟨f, factored, rfl⟩ | ⟨-, parts⟩⟩⟩⟩⟩⟩
  · exact fun M laws kept _ => derives_tabled laws kept.keeps table
  · exact right_reduced deeper reduced
  · exact right_sineProduct deeper product
  · exact right_divided deeper divided
  · exact right_substituted deeper substituted
  · exact right_expanded deeper expanded
  · exact right_factored right factored
  · split at parts
    · obtain ⟨f, run, rfl⟩ := Option.map_eq_some_iff.mp parts
      exact right_byParts right run
    · cases parts

end Searches

/-! ## Sums and free factors -/

section Terms

theorem right_free (free : e.mentions x = false) :
    IntegralRun.Right K T x e ⟨e.times (.ident x), []⟩ := by
  intro M laws _ _ z w hz hw
  obtain rfl := Option.some.inj <|
    (laws.exact.readsNumerals.value?_mul hw (value?_ident x)).symm.trans hz
  rw [M.D.leibniz, D_value_of_free laws.toLawful free hw, laws.ident_self, smul_zero, smul_eq_mul,
    mul_one, add_zero]

/-- A factor without the symbol is a constant. -/
theorem right_multiple {factor inner : Expr} (free : factor.mentions x = false)
    (right : run.Right K T x inner)
    (split : ∀ {M : DifferentialReading K} {w}, M.value? e = some w →
      ∃ a b, M.value? factor = some a ∧ M.value? inner = some b ∧ a * b = w) :
    IntegralRun.Right K T x e ⟨factor.times run.result, run.all⟩ := by
  intro M laws kept valued z w hz hw
  obtain ⟨a, b, ha, hb, rfl⟩ := split hw
  obtain ⟨y, hy, rfl⟩ := right.slope laws kept valued hb
  obtain rfl := Option.some.inj ((laws.exact.readsNumerals.value?_mul ha hy).symm.trans hz)
  rw [M.D.leibniz, D_value_of_free laws.toLawful free ha, smul_zero, smul_eq_mul, add_zero]

variable {whole : Expr → Option (IntegralRun × Strategy)}

theorem D_termsRun (laws : M.Elementary x) (kept : M.KeptBy T x) {terms : List Expr}
    {runs : List IntegralRun}
    (each : ∀ t ∈ terms, ∀ {r}, termRun whole x t = some r → r.1.Right K T x t)
    (found : termsRun whole x terms = some runs)
    (valued : M.Valued (runs.flatMap IntegralRun.trees)) {zs ws : List K}
    (hz : M.values? (runs.map IntegralRun.result) = some zs) (hw : M.values? terms = some ws) :
    M.D zs.sum = ws.sum := by
  induction terms generalizing runs zs ws with
  | nil =>
    rw [termsRun] at found
    obtain rfl := Option.some.inj found
    obtain rfl := Option.some.inj hz
    obtain rfl := Option.some.inj hw
    rw [List.sum_nil, map_zero]
  | cons t ts ih =>
    obtain ⟨here, there⟩ := List.forall_mem_cons.mp each
    rw [termsRun] at found
    split at found
    · rename_i r first
      obtain ⟨rest, later, rfl⟩ := Option.map_eq_some_iff.mp found
      rw [List.flatMap_cons, valued_append] at valued
      obtain ⟨z, hr, zs, hrest, rfl⟩ := values?_cons.mp hz
      obtain ⟨w, ht, ws, hts, rfl⟩ := values?_cons.mp hw
      rw [List.sum_cons, List.sum_cons, map_add, ih there later valued.2 hrest hts,
        here first M laws kept valued.1 z w hr ht]
    · cases found

theorem right_term (right : ∀ {e r}, whole e = some r → r.1.Right K T x e)
    {r : IntegralRun × Strategy} (found : termRun whole x e = some r) : r.1.Right K T x e := by
  induction size : e.size using Nat.strongRecOn generalizing e r with
  | ind n ih =>
    have smaller {t : Expr} {r : IntegralRun × Strategy} (less : t.size < e.size)
        (found : termRun whole x t = some r) : r.1.Right K T x t := ih t.size (by omega) found rfl
    unfold termRun at found
    split at found
    case h_1 terms =>
      split at found
      · rename_i free
        cases found
        exact right_free ((Bool.not_eq_true' _).mp free)
      · split at found
        · rename_i runs each
          cases found
          intro M laws kept valued z w hz hw
          obtain ⟨zs, hzs, rfl⟩ := value?_sum.mp hz
          obtain ⟨ws, hws, sum⟩ := value?_node.mp hw
          obtain rfl := Option.some.inj sum
          refine (D_termsRun laws kept (fun t member r => smaller ?_) each valued hzs hws).symm
          have := size_le_sizeAll member
          rw [Expr.size]
          omega
        · exact right found
    case h_2 a b =>
      split at found
      · rename_i free
        cases found
        exact right_free ((Bool.not_eq_true' _).mp free)
      · split at found
        · rename_i f first
          split at found
          · rename_i g second
            cases found
            simp only [Expr.size, Expr.sizeAll] at smaller
            intro M laws kept valued z w hz hw
            obtain ⟨minuend, subtrahend⟩ := valued_append.mp valued
            obtain ⟨p, hp, q, hq, rfl⟩ := value?_sub.mp hz
            obtain ⟨v, ha, w, hb, rfl⟩ := value?_sub.mp hw
            rw [map_sub, smaller (by omega) first M laws kept minuend p v hp ha,
              smaller (by omega) second M laws kept subtrahend q w hq hb]
          · exact right found
        · exact right found
    case h_3 factors =>
      split at found
      · rename_i free
        cases found
        exact right_free ((Bool.not_eq_true' _).mp free)
      · dsimp only at found
        split at found
        · exact right found
        · rename_i some_free
          obtain ⟨f, bound, rfl⟩ := Option.map_eq_some_iff.mp found
          have less := Expr.size_product_filter_lt (fun f => f.mentions x) factors some_free
          refine right_multiple ?_ (smaller less bound) fun hw => ?_
          · refine Expr.namesIn_others.mp (Expr.namesIn_product.mpr fun f member => ?_)
            exact Expr.namesIn_others.mpr (by simpa using (List.mem_filter.mp member).2)
          · obtain ⟨b, a, hb, ha, rfl⟩ := value?_split (fun f => f.mentions x) hw
            exact ⟨a, b, (value?_product_eq _).trans ha, (value?_product_eq _).trans hb,
              mul_comm a b⟩
    case h_4 n d =>
      split at found
      · rename_i free
        cases found
        exact right_free ((Bool.not_eq_true' _).mp free)
      · split at found
        · rename_i free
          obtain ⟨f, top, rfl⟩ := Option.map_eq_some_iff.mp found
          simp only [Expr.size, Expr.sizeAll] at smaller
          refine right_multiple ?_ (smaller (by omega) top) fun hw => ?_
          · have free := Expr.namesIn_others.mpr ((Bool.not_eq_true' _).mp free)
            exact Expr.namesIn_others.mp (Expr.namesIn_div.mpr ⟨Expr.namesIn_one, free⟩)
          · obtain ⟨p, hp, q, hq, nonzero, rfl⟩ := value?_div.mp hw
            exact ⟨1 / q, p, value?_div.mpr ⟨1, value?_one, q, hq, nonzero, rfl⟩, hp,
              one_div_mul_eq_div q p⟩
        · split at found
          · rename_i free
            obtain ⟨f, reciprocal, rfl⟩ := Option.map_eq_some_iff.mp found
            refine right_multiple (by simp_all) (right reciprocal) fun hw => ?_
            obtain ⟨p, hp, q, hq, nonzero, rfl⟩ := value?_div.mp hw
            exact ⟨p, 1 / q, hp, value?_div.mpr ⟨1, value?_one, q, hq, nonzero, rfl⟩,
              mul_one_div p q⟩
          · exact right found
    case h_5 =>
      split at found
      · rename_i free
        cases found
        exact right_free ((Bool.not_eq_true' _).mp free)
      · exact right found

end Terms

/-! ## The search -/

theorem searches_right [CharZero K] (T : IntegrationTools) (options : IntegrationOptions)
    (budget n : Nat) : (T.searches options budget n).Right K T := by
  induction budget generalizing n with
  | zero =>
    intro x byParts e r found
    cases found
  | succ budget ih =>
    intro x byParts e r found
    rw [searches] at found
    split at found
    · exact ih n found
    · exact right_term (right_whole ih) found

/-- Also the result of simplifying what is found for the simplified integrand is right. -/
theorem right_antiderivative [CharZero K] {options : IntegrationOptions}
    {r : IntegralRun × Strategy} (found : T.antiderivativeRun options x e = some r) :
    r.1.Right K T x e := by
  unfold antiderivativeRun at found
  dsimp only at found
  split at found
  · rename_i run strategy answer
    split at found
    · cases found
    · cases found
      intro M laws kept valued z w hz hw
      obtain ⟨⟨y, hy⟩, trees⟩ := valued_cons.mp valued
      obtain rfl := Option.some.inj ((kept.keeps _ _ hy).symm.trans hz)
      rcases (Option.orElse_eq_some ..).mp answer with simplified | ⟨-, original⟩
      · exact searches_right T options _ _ simplified M laws kept trees y w hy (kept.keeps _ _ hw)
      · split at original
        · cases original
        · exact searches_right T options _ _ original M laws kept trees y w hy hw
  · cases found

end IntegrationTools

end SymbolicAlgebra
