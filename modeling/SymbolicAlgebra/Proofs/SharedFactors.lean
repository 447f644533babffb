import SymbolicAlgebra.Factor.Shared
import SymbolicAlgebra.Proofs.SumFactoring

/-! The factor that the terms of a sum share. Each power of a shared base loses the shared exponent,
so the product is the sum wherever no term has two powers of a base that is taken out. -/
namespace SymbolicAlgebra

/-! ## What can be taken out -/

/-- An exponent that a power can give up: all of its own, or a positive integer that is not more. -/
def GivesUp (exponent taken : Expr) : Prop :=
  taken = exponent ∨
    ∃ r least : Rat, exponent.rational? = some r ∧ taken = .ofRat least ∧ least.den = 1 ∧
      0 < least.num ∧ least ≤ r

theorem leastOf_le (least : Rat) (rs : List Rat) :
    leastOf least rs ≤ least ∧ ∀ r ∈ rs, leastOf least rs ≤ r := by
  induction rs generalizing least with
  | nil => exact ⟨le_refl _, nofun⟩
  | cons s rs ih =>
    obtain ⟨first, rest⟩ := ih (if s < least then s else least)
    rw [leastOf]
    have both : (if s < least then s else least) ≤ least ∧
        (if s < least then s else least) ≤ s := by
      split <;> constructor <;> linarith
    exact ⟨first.trans both.1, List.forall_mem_cons.mpr ⟨first.trans both.2, rest⟩⟩

theorem exists_mem_of_mapM {α β : Type} {f : α → Option β} {xs : List α} {ys : List β}
    (h : xs.mapM f = some ys) : ∀ x ∈ xs, ∃ y ∈ ys, f x = some y := by
  induction xs generalizing ys with
  | nil => exact nofun
  | cons x xs ih =>
    simp only [List.mapM_cons, Option.bind_eq_bind, Option.bind_eq_some_iff, Option.pure_def,
      Option.some.injEq] at h
    obtain ⟨y, first, others, rest, rfl⟩ := h
    refine List.forall_mem_cons.mpr ⟨⟨y, List.mem_cons_self, first⟩, fun z member => ?_⟩
    obtain ⟨v, inside, found⟩ := ih rest z member
    exact ⟨v, List.mem_cons_of_mem _ inside, found⟩

theorem givesUp_of_sharedExponent? {es : List Expr} {taken : Expr}
    (h : sharedExponent? es = some taken) : ∀ e ∈ es, GivesUp e taken := by
  unfold sharedExponent? at h
  split at h
  · cases h
  · rename_i e es
    split at h
    · rename_i same
      cases h
      refine List.forall_mem_cons.mpr ⟨.inl rfl, fun x member => .inl ?_⟩
      exact (of_decide_eq_true (List.all_eq_true.mp same x member)).symm
    · split at h
      · rename_i r rs rationals
        dsimp only at h
        split at h
        · rename_i whole
          cases h
          obtain ⟨first, rest⟩ := leastOf_le r rs
          intro x member
          obtain ⟨s, inside, found⟩ := exists_mem_of_mapM rationals x member
          refine .inr ⟨s, _, found, rfl, whole.1, whole.2, ?_⟩
          rcases List.mem_cons.mp inside with rfl | other
          · exact first
          · exact rest s other
        · cases h
      · cases h

theorem mem_of_exponentOf? {base exponent : Expr} {ps : List Power}
    (h : exponentOf? base ps = some exponent) : (base, exponent) ∈ ps := by
  obtain ⟨p, found, rfl⟩ := Option.map_eq_some_iff.mp h
  have same : p.1 = base := by simpa using List.find?_some found
  rw [← same]
  exact List.mem_of_find?_eq_some found

theorem mem_fst_of_exponentOf? {base exponent : Expr} {ps : List Power}
    (h : exponentOf? base ps = some exponent) : base ∈ ps.map Prod.fst :=
  List.mem_map.mpr ⟨_, mem_of_exponentOf? h, rfl⟩

theorem exponentOf?_cons (base : Expr) (p : Power) (ps : List Power) :
    exponentOf? base (p :: ps) = if p.1 = base then some p.2 else exponentOf? base ps := by
  unfold exponentOf?
  by_cases same : p.1 = base <;> simp [same]

theorem exponentOf?_eq_none {base : Expr} {ps : List Power} (h : base ∉ ps.map Prod.fst) :
    exponentOf? base ps = none := by
  cases found : exponentOf? base ps with
  | none => rfl
  | some exponent => exact absurd (mem_fst_of_exponentOf? found) h

/-- A power whose base occurs just once is the one that is found for its base. -/
theorem exponentOf?_of_count {ps : List Power} {p : Power} (member : p ∈ ps)
    (once : (ps.map Prod.fst).count p.1 ≤ 1) : exponentOf? p.1 ps = some p.2 := by
  induction ps with
  | nil => cases member
  | cons q ps ih =>
    rw [exponentOf?_cons]
    rw [List.map_cons, List.count_cons] at once
    rcases List.mem_cons.mp member with rfl | other
    · rw [if_pos rfl]
    · have positive : 0 < (ps.map Prod.fst).count p.1 :=
        List.count_pos_iff.mpr (List.mem_map_of_mem other)
      split at once
      · omega
      · rename_i different
        rw [if_neg (by simpa using different)]
        exact ih other once

/-- The powers that are taken out have different bases, and every term can give them up. -/
theorem sharedPowers_spec (terms : List FactoredTerm) (seen powers : List Power)
    (distinct : (seen.map Prod.fst).Nodup)
    (shared : ∀ p ∈ seen, ∀ t ∈ terms, ∃ e, exponentOf? p.1 t.powers = some e ∧ GivesUp e p.2) :
    ((sharedPowers terms seen powers).map Prod.fst).Nodup ∧
      ∀ p ∈ sharedPowers terms seen powers, ∀ t ∈ terms,
        ∃ e, exponentOf? p.1 t.powers = some e ∧ GivesUp e p.2 := by
  fun_induction sharedPowers terms seen powers with
  | case1 => exact ⟨distinct, shared⟩
  | case2 _ _ _ _ _ ih => exact ih distinct shared
  | case3 seen base _ rest unseen exponent found ih =>
    obtain ⟨exponents, each, taken⟩ := Option.bind_eq_some_iff.mp found
    refine ih ?_ ?_
    · rw [List.map_append, List.nodup_append]
      refine ⟨distinct, List.nodup_singleton _, fun a ha b hb => ?_⟩
      rintro rfl
      obtain ⟨p, member, rfl⟩ := List.mem_map.mp ha
      rw [List.map_singleton, List.mem_singleton] at hb
      exact unseen (List.any_eq_true.mpr ⟨p, member, by simpa using hb⟩)
    · refine List.forall_mem_append.mpr ⟨shared, List.forall_mem_singleton.mpr fun t member => ?_⟩
      obtain ⟨e, inside, own⟩ := exists_mem_of_mapM each t member
      exact ⟨e, own, givesUp_of_sharedExponent? taken e inside⟩
  | case4 _ _ _ _ _ _ ih => exact ih distinct shared

/-- The powers that are taken out of terms. -/
def takenPowers : List FactoredTerm → List Power
  | [] => []
  | first :: others => sharedPowers (first :: others) [] first.powers

theorem takenPowers_spec (terms : List FactoredTerm) :
    ((takenPowers terms).map Prod.fst).Nodup ∧
      ∀ p ∈ takenPowers terms, ∀ t ∈ terms,
        ∃ e, exponentOf? p.1 t.powers = some e ∧ GivesUp e p.2 := by
  cases terms with
  | nil => exact ⟨List.nodup_nil, nofun⟩
  | cons first others => exact sharedPowers_spec _ [] first.powers List.nodup_nil nofun

/-- No term has two powers of a base that is taken out. -/
def SharesOnce (terms : List FactoredTerm) : Prop :=
  ∀ p ∈ takenPowers terms, ∀ t ∈ terms, (t.powers.map Prod.fst).count p.1 ≤ 1

instance (terms : List FactoredTerm) : Decidable (SharesOnce terms) :=
  inferInstanceAs (Decidable (∀ p ∈ takenPowers terms, ∀ t ∈ terms, _))

/-- Where a shared factor is pulled out of a sum, no term has two powers of one of its bases. -/
def PullsOnce (e : Expr) : Prop :=
  (factorSharedNode e).changed = true → SharesOnce (e.addends.map .ofTerm)

instance (e : Expr) : Decidable (PullsOnce e) := inferInstanceAs (Decidable (_ → _))

namespace Reading

variable {K : Type*} [Field K] [CharZero K] {R : Reading K}

/-! ## What is left -/

/-- A power with the exponent that it gives up. -/
theorem taken_spec {base exponent taken : Expr} (h : R.Defined (.pow base exponent))
    (gives : GivesUp exponent taken) : R.Defined (.pow base taken) := by
  rcases gives with rfl | ⟨r, least, rational, rfl, whole, positive, le⟩
  · exact h
  · obtain ⟨hb, -, -⟩ := (defined_pow _ _).mp h
    refine (defined_pow base (.ofRat least)).mpr ⟨hb, defined_ofRat _, least.num, ?_, ?_⟩
    · rw [val_ofRat]
      exact_mod_cast congrArg (Rat.cast (K := K)) (Rat.den_eq_one_iff least |>.mp whole)
    · intro _
      exact positive.le

/-- The power that is taken out with a base, one for other bases. -/
noncomputable def takenVal (R : Reading K) (shared : List Power) (base : Expr) : K :=
  (exponentOf? base shared).elim 1 fun taken => R.val (.pow base taken)

/-- A power is what is taken out of it times what is left. -/
theorem powerLeft?_spec {shared : List Power} {p : Power} (h : R.Defined (.pow p.1 p.2))
    (gives : ∀ taken, exponentOf? p.1 shared = some taken → GivesUp p.2 taken) :
    (∀ e ∈ powerLeft? shared p, R.Defined e) ∧
      R.takenVal shared p.1 * (powerLeft? shared p).elim 1 R.val = R.val (.pow p.1 p.2) := by
  obtain ⟨base, exponent⟩ := p
  dsimp only at h gives ⊢
  unfold takenVal powerLeft?
  dsimp only
  cases found : exponentOf? base shared with
  | none =>
    obtain ⟨defined, value⟩ := powerExpr_keeps (base, exponent) h
    exact ⟨by simpa using defined, by simpa using value⟩
  | some taken =>
    dsimp only
    split
    · rename_i whole
      subst whole
      exact ⟨by simp, by simp⟩
    rcases gives taken found with rfl | ⟨r, least, rational, rfl, whole, positive, le⟩
    · contradiction
    · have integer : Expr.rational? (.ofRat least) = some least := by
        simp [Expr.ofRat, whole, Expr.rational?]
      obtain ⟨hb, -, m, exponentEq, nonneg⟩ := (defined_pow _ _).mp h
      have rCast : (m : Rat) = r := by
        have := exponentEq.trans (rational?_spec rational).2
        exact_mod_cast this
      obtain ⟨k, rfl⟩ : ∃ k : Int, (k : Rat) = least :=
        ⟨least.num, Rat.den_eq_one_iff least |>.mp whole⟩
      subst rCast
      have difference : R.val (.ofRat ((m : Rat) - k)) = ((m - k : Int) : K) := by simp
      have bound : 0 ≤ m - k := by
        have : k ≤ m := by exact_mod_cast le
        omega
      have left : R.Defined (.pow base (.ofRat ((m : Rat) - k))) :=
        (defined_pow base _).mpr ⟨hb, defined_ofRat _, m - k, difference.symm, fun _ => bound⟩
      obtain ⟨defined, value⟩ := powerExpr_keeps (base, .ofRat ((m : Rat) - k)) left
      simp only [rational, integer, Option.mem_def, Option.some.injEq, forall_eq',
        Option.elim_some]
      refine ⟨defined, ?_⟩
      have start : 0 < k := by simpa using positive
      rw [value]
      simp only [val_pow, difference, val_ofRat, Rat.cast_intCast, power_intCast, ← exponentEq]
      rw [← zpow_add' (.inr (.inl (by omega))), add_sub_cancel]

theorem powersLeft_spec {shared ps : List Power} (h : R.PowersDefined ps)
    (gives : ∀ p ∈ ps, ∀ taken, exponentOf? p.1 shared = some taken → GivesUp p.2 taken) :
    (∀ e ∈ ps.filterMap (powerLeft? shared), R.Defined e) ∧
      (ps.map fun p => R.takenVal shared p.1).prod *
          ((ps.filterMap (powerLeft? shared)).map R.val).prod = R.powersVal ps := by
  induction ps with
  | nil => simp
  | cons p ps ih =>
    obtain ⟨hp, hps⟩ := (powersDefined_cons p ps).mp h
    obtain ⟨first, rest⟩ := List.forall_mem_cons.mp gives
    obtain ⟨here, value⟩ := powerLeft?_spec hp first
    obtain ⟨defined, product⟩ := ih hps rest
    rw [powersVal_cons, ← product, ← value, List.map_cons, List.prod_cons, List.filterMap_cons]
    cases left : powerLeft? shared p with
    | none =>
      refine ⟨defined, ?_⟩
      rw [Option.elim_none]
      ring
    | some e =>
      refine ⟨List.forall_mem_cons.mpr ⟨here e left, defined⟩, ?_⟩
      rw [List.map_cons, List.prod_cons, Option.elim_some]
      ring

omit [CharZero K] in
/-- Over a term that has every shared base once, what is taken out is the shared powers. -/
theorem prod_takenVal {shared ps : List Power} (distinct : (shared.map Prod.fst).Nodup)
    (once : ∀ p ∈ shared, (ps.map Prod.fst).count p.1 = 1) :
    (ps.map fun p => R.takenVal shared p.1).prod = R.powersVal shared := by
  induction shared with
  | nil => simp [takenVal, exponentOf?]
  | cons q shared ih =>
    obtain ⟨fresh, others⟩ := List.nodup_cons.mp (List.map_cons ▸ distinct)
    obtain ⟨first, rest⟩ := List.forall_mem_cons.mp once
    have split (base : Expr) : R.takenVal (q :: shared) base =
        (if base = q.1 then R.val (.pow q.1 q.2) else 1) * R.takenVal shared base := by
      rw [takenVal, exponentOf?_cons]
      by_cases same : q.1 = base
      · subst same
        simp [takenVal, exponentOf?_eq_none fresh]
      · simp [takenVal, same, Ne.symm same]
    have single : (ps.map fun p => if p.1 = q.1 then R.val (.pow q.1 q.2) else 1).prod =
        R.val (.pow q.1 q.2) := by
      have power (ts : List Power) :
          (ts.map fun p => if p.1 = q.1 then R.val (.pow q.1 q.2) else 1).prod =
            R.val (.pow q.1 q.2) ^ (ts.map Prod.fst).count q.1 := by
        induction ts with
        | nil => simp
        | cons t ts tail =>
          rw [List.map_cons, List.prod_cons, tail, List.map_cons, List.count_cons]
          by_cases same : t.1 = q.1
          · simp [same, pow_succ']
          · simp [same]
      rw [power, first, pow_one]
    simp only [split, List.prod_map_mul, single, ih others rest, powersVal_cons]

/-! ## Sums -/

/-- A term is what is taken out, times what remains of it. -/
theorem remainingTerm_spec {content : Rat} (nonzero : content ≠ 0) {shared : List Power}
    {t : FactoredTerm} (h : R.TermDefined t) (distinct : (shared.map Prod.fst).Nodup)
    (gives : ∀ p ∈ shared, ∃ e, exponentOf? p.1 t.powers = some e ∧ GivesUp e p.2)
    (once : ∀ p ∈ shared, (t.powers.map Prod.fst).count p.1 ≤ 1) :
    R.Defined (.scale (t.coefficient.div (.exact content))
        (.product (t.powers.filterMap (powerLeft? shared)))) ∧
      content * R.powersVal shared * R.val (.scale (t.coefficient.div (.exact content))
        (.product (t.powers.filterMap (powerLeft? shared)))) = R.termVal t := by
  obtain ⟨coefficient, powers⟩ := t
  obtain ⟨c, rfl⟩ := Numeral.exists_exact h.1
  dsimp only at gives once ⊢
  have exactlyOnce (p : Power) (member : p ∈ shared) : (powers.map Prod.fst).count p.1 = 1 := by
    obtain ⟨e, found, -⟩ := gives p member
    have positive : 0 < (powers.map Prod.fst).count p.1 :=
      List.count_pos_iff.mpr (mem_fst_of_exponentOf? found)
    have := once p member
    omega
  have own (p : Power) (member : p ∈ powers) (taken : Expr)
      (found : exponentOf? p.1 shared = some taken) : GivesUp p.2 taken := by
    have inside := mem_of_exponentOf? found
    obtain ⟨e, exponent, up⟩ := gives _ inside
    rw [exponentOf?_of_count member (once (p.1, taken) inside), Option.some.injEq] at exponent
    rwa [exponent]
  obtain ⟨left, product⟩ := powersLeft_spec (R := R) h.2 own
  obtain ⟨defined, value⟩ := scale_spec (R := R) (c / content) ((defined_product _).mpr left)
  have cast : (content : K) ≠ 0 := Rat.cast_ne_zero.mpr nonzero
  simp only [Numeral.div_exact nonzero]
  refine ⟨defined, ?_⟩
  rw [value, val_product, termVal, Numeral.val_exact, ← product, prod_takenVal distinct exactlyOnce,
    Rat.cast_div]
  field_simp

/-- The content, with the sign of the first term where that has to be positive. -/
theorem content_exact {divisor : Option Numeral} (exact : ∀ g ∈ divisor, g.isExact = true)
    (negative : Bool) :
    ∃ content : Rat, content ≠ 0 ∧
      (if negative then ((divisor.filter fun g => !g.isZero).getD .one).neg
        else (divisor.filter fun g => !g.isZero).getD .one) = .exact content := by
  obtain ⟨m, nonzero, magnitude⟩ : ∃ m : Rat, m ≠ 0 ∧
      (divisor.filter fun g => !g.isZero).getD .one = .exact m := by
    cases kept : divisor.filter fun g => !g.isZero with
    | none => exact ⟨1, one_ne_zero, rfl⟩
    | some g =>
      obtain ⟨found, proper⟩ := Option.filter_eq_some_iff.mp kept
      obtain ⟨r, rfl⟩ := Numeral.exists_exact (exact g found)
      exact ⟨r, by simpa [Numeral.isZero] using proper, rfl⟩
  rw [magnitude]
  cases negative with
  | true => exact ⟨-m, neg_ne_zero.mpr nonzero, rfl⟩
  | false => exact ⟨m, nonzero, rfl⟩

theorem ofTerms_spec {terms : List Expr} (h : ∀ t ∈ terms, R.Defined t) :
    (∀ t ∈ terms.map FactoredTerm.ofTerm, R.TermDefined t) ∧
      (terms.map FactoredTerm.ofTerm).map R.termVal = terms.map R.val := by
  refine ⟨fun t member => ?_, ?_⟩
  · obtain ⟨e, inside, rfl⟩ := List.mem_map.mp member
    exact (ofTerm_spec (h e inside)).1
  · rw [List.map_map]
    exact List.map_congr_left fun e inside => (ofTerm_spec (h e inside)).2

/-- The shared powers come from the first term. -/
theorem takenPowers_defined {terms : List FactoredTerm} (h : ∀ t ∈ terms, R.TermDefined t) :
    R.PowersDefined (takenPowers terms) := by
  cases terms with
  | nil => exact powersDefined_nil
  | cons first others =>
    intro p member
    obtain ⟨e, found, up⟩ := (takenPowers_spec _).2 p member first List.mem_cons_self
    exact taken_spec ((h first List.mem_cons_self).2 (p.1, e) (mem_of_exponentOf? found)) up

/-- Every addend is the shared factor times the addend that is left in its place. -/
theorem sharedFactor?_addends {leadPositive : Bool} {terms : List Expr} {f : SharedFactor}
    (h : ∀ t ∈ terms, R.Defined t) (once : SharesOnce (terms.map .ofTerm))
    (found : sharedFactor? leadPositive terms = some f) :
    R.Defined f.common ∧ (∀ x ∈ f.rest, R.Defined x) ∧
      f.rest.map (fun x => R.val f.common * R.val x) = terms.map R.val := by
  obtain ⟨defined, values⟩ := ofTerms_spec h
  rw [← values]
  unfold sharedFactor? at found
  split at found
  · rename_i first second others heq
    rw [heq] at once defined ⊢
    obtain ⟨content, nonzero, contentEq⟩ := content_exact
      (fun g divisor => contentFrom?_exact Numeral.isExact_zero divisor)
      (leadPositive && first.coefficient.isNegative)
    have taken : sharedPowers (first :: second :: others) [] first.powers =
        takenPowers (first :: second :: others) := rfl
    dsimp only at found
    rw [contentEq, taken] at found
    split at found
    · cases found
    cases found
    obtain ⟨distinct, gives⟩ := takenPowers_spec (first :: second :: others)
    have remaining (t : FactoredTerm) (member : t ∈ first :: second :: others) :=
      remainingTerm_spec nonzero (defined t member) distinct
        (fun p inside => gives p inside t member) (fun p inside => once p inside t member)
    obtain ⟨powers, product⟩ := powerExprs_spec (takenPowers_defined defined)
    obtain ⟨common, commonValue⟩ := scale_spec (R := R) content ((defined_product _).mpr powers)
    refine ⟨common, fun x member => ?_, ?_⟩
    · obtain ⟨t, inside, rfl⟩ := List.mem_map.mp member
      exact (remaining t inside).1
    · rw [commonValue, val_product, product, List.map_map]
      exact List.map_congr_left fun t member => (remaining t member).2
  · cases found

theorem sharedFactor?_spec {leadPositive : Bool} {terms : List Expr} {f : SharedFactor}
    (h : ∀ t ∈ terms, R.Defined t) (once : SharesOnce (terms.map .ofTerm))
    (found : sharedFactor? leadPositive terms = some f) :
    R.Defined f.common ∧ (∀ x ∈ f.rest, R.Defined x) ∧
      R.val f.common * (f.rest.map R.val).sum = (terms.map R.val).sum := by
  obtain ⟨common, rest, addends⟩ := sharedFactor?_addends h once found
  exact ⟨common, rest, by rw [← addends, List.sum_map_mul_left]⟩

theorem factorSharedNode_keeps (e : Expr) (once : PullsOnce e) :
    R.Keeps e (factorSharedNode e).expr := by
  intro h
  unfold factorSharedNode
  split
  · rename_i terms
    split
    · rename_i f found
      split
      · exact ⟨h, rfl⟩
      · rename_i proper
        have pulled : (factorSharedNode (.node .add terms)).changed = true := by
          simp only [factorSharedNode, found, if_neg proper, Step.new]
        obtain ⟨common, rest, value⟩ :=
          sharedFactor?_spec ((defined_node_add terms).mp h) (once pulled) found
        have sum : R.Defined (.sum f.rest) := (defined_sum _).mpr rest
        exact ⟨defined_times common sum, by
          rw [Step.new, val_times common sum, val_sum, value, val_node_add]⟩
    · exact ⟨h, rfl⟩
  · exact ⟨h, rfl⟩

theorem factorShared_keeps {e : Expr} (once : Visits factorSharedNode PullsOnce e) :
    R.Keeps e (factorShared e).expr :=
  everywhere_keeps_of_visits factorSharedNode_keeps once

end Reading

end SymbolicAlgebra
