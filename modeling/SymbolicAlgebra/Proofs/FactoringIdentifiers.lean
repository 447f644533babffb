import SymbolicAlgebra.NormalForm
import SymbolicAlgebra.Proofs.GatheringIdentifiers
import SymbolicAlgebra.Proofs.PolynomialIdentifiers
import SymbolicAlgebra.Proofs.Rounds
import SymbolicAlgebra.Proofs.SharedFactors

/-! Cancelling and factoring bring in no identifier. -/
namespace SymbolicAlgebra

open SymbolicAlgebra.Expr

variable {S : Set String} {e a b : Expr} {xs : List Expr}

/-! ## Quotients -/

def PowersIn (S : Set String) (ps : List Power) : Prop :=
  ∀ p ∈ ps, p.1.NamesIn S ∧ p.2.NamesIn S

theorem powersIn_append {ps qs : List Power} :
    PowersIn S (ps ++ qs) ↔ PowersIn S ps ∧ PowersIn S qs := List.forall_mem_append

theorem powersIn_cons {p : Power} {ps : List Power} :
    PowersIn S (p :: ps) ↔ (p.1.NamesIn S ∧ p.2.NamesIn S) ∧ PowersIn S ps := List.forall_mem_cons

theorem powersIn_nil : PowersIn S [] := by simp [PowersIn]

theorem powersIn_map_asPower (h : ∀ y ∈ xs, y.NamesIn S) : PowersIn S (xs.map Expr.asPower) := by
  intro p member
  obtain ⟨y, inside, rfl⟩ := List.mem_map.mp member
  exact (h y inside).asPower

theorem powersIn_ofExpr (h : e.NamesIn S) : PowersIn S (FactoredTerm.ofExpr e).powers :=
  powersIn_map_asPower (namesIn_filter (namesIn_factors.mpr h))

theorem namesIn_powerExpr {p : Power} (h : p.1.NamesIn S ∧ p.2.NamesIn S) :
    (FactoredTerm.powerExpr p).NamesIn S := by
  unfold FactoredTerm.powerExpr
  split
  · exact h.1
  · exact namesIn_pow.mpr h

theorem namesIn_powerExprs {ps : List Power} (h : PowersIn S ps) :
    ∀ y ∈ ps.map FactoredTerm.powerExpr, y.NamesIn S := by
  intro y member
  obtain ⟨p, inside, rfl⟩ := List.mem_map.mp member
  exact namesIn_powerExpr (h p inside)

theorem namesIn_factoredTerm (c : Numeral) {ps : List Power} (h : PowersIn S ps) :
    (FactoredTerm.toExpr ⟨c, ps⟩).NamesIn S := by
  refine namesIn_product.mpr (namesIn_append ?_ (namesIn_powerExprs h))
  split <;> simp

theorem namesIn_quotientFlatten (ha : a.NamesIn S) (hb : b.NamesIn S) :
    (Quotient.flatten a b).num.NamesIn S ∧ (Quotient.flatten a b).den.NamesIn S := by
  fun_induction Quotient.flatten a b with
  | case1 n m d ih =>
    obtain ⟨top, bottom⟩ : n.NamesIn S ∧ m.NamesIn S := by simpa using ha
    exact ih top (bottom.times hb)
  | case2 n c d _ ih =>
    obtain ⟨top, bottom⟩ : c.NamesIn S ∧ d.NamesIn S := by simpa using hb
    exact ih (ha.times bottom) top
  | case3 => exact ⟨ha, hb⟩

theorem powersIn_netPower {base upper lower : Expr} {before after : List Power}
    (hbase : base.NamesIn S) (hu : upper.NamesIn S) (hl : lower.NamesIn S)
    (hb : PowersIn S before) (ha : PowersIn S after) :
    PowersIn S (netPower base upper lower before after).1 ∧
      PowersIn S (netPower base upper lower before after).2 := by
  have others := powersIn_append.mpr ⟨hb, ha⟩
  unfold netPower
  split
  · dsimp only
    split
    · exact ⟨powersIn_nil, powersIn_append.mpr
        ⟨hb, powersIn_cons.mpr ⟨⟨hbase, namesIn_ofRat _⟩, ha⟩⟩⟩
    · split
      · exact ⟨powersIn_nil, others⟩
      · exact ⟨powersIn_cons.mpr ⟨⟨hbase, namesIn_ofRat _⟩, powersIn_nil⟩, others⟩
  · exact ⟨powersIn_cons.mpr ⟨⟨hbase, by simpa using ⟨hu, hl.negate⟩⟩, powersIn_nil⟩, others⟩

theorem powersIn_netPowers {top bottom : List Power} (ht : PowersIn S top)
    (hb : PowersIn S bottom) :
    PowersIn S (netPowers top bottom).top ∧ PowersIn S (netPowers top bottom).bottom := by
  induction top generalizing bottom with
  | nil => exact ⟨powersIn_nil, hb⟩
  | cons p rest ih =>
    obtain ⟨base, upper⟩ := p
    obtain ⟨⟨hbase, hupper⟩, hrest⟩ := powersIn_cons.mp ht
    rw [netPowers]
    split
    · obtain ⟨above, below⟩ := ih hrest hb
      exact ⟨powersIn_cons.mpr ⟨⟨hbase, hupper⟩, above⟩, below⟩
    · rename_i before lower after found
      rw [eq_append_of_splitAtBase found] at hb
      obtain ⟨hbefore, hfound⟩ := powersIn_append.mp hb
      obtain ⟨⟨-, hlower⟩, hafter⟩ := powersIn_cons.mp hfound
      obtain ⟨kept, left⟩ := powersIn_netPower hbase hupper hlower hbefore hafter
      obtain ⟨above, below⟩ := ih hrest left
      exact ⟨powersIn_append.mpr ⟨kept, above⟩, below⟩

theorem namesIn_ofFlat {q : Quotient} (hn : q.num.NamesIn S) (hd : q.den.NamesIn S) :
    (Cancellation.ofFlat q).expr.NamesIn S := by
  have whole : q.toExpr.NamesIn S := namesIn_div.mpr ⟨hn, hd⟩
  unfold Cancellation.ofFlat
  split
  · simp
  · split
    · exact whole
    · split
      · exact namesIn_constantQuotient? ‹_›
      · split
        · unfold Cancellation.ofNumerals
          dsimp only
          split <;> simp
        · unfold Cancellation.ofTerms
          obtain ⟨above, below⟩ := powersIn_netPowers (powersIn_ofExpr hn) (powersIn_ofExpr hd)
          split
          · exact whole
          · dsimp only
            split
            · exact whole
            · split
              · exact namesIn_factoredTerm _ above
              · exact namesIn_div.mpr ⟨namesIn_factoredTerm _ above, namesIn_factoredTerm _ below⟩

theorem namesIn_ofSides (ha : a.NamesIn S) (hb : b.NamesIn S) :
    (Cancellation.ofSides a b).expr.NamesIn S := by
  obtain ⟨top, bottom⟩ := namesIn_quotientFlatten ha hb
  exact namesIn_ofFlat top bottom

theorem namesIn_reduceQuotients (h : e.NamesIn S) : (reduceQuotients e).expr.NamesIn S := by
  refine NamesIn.everywhere (fun e h => ?_) h
  unfold reduceQuotientsNode
  split
  · obtain ⟨top, bottom⟩ : NamesIn S _ ∧ NamesIn S _ := by simpa using h
    exact namesIn_ofSides top bottom
  · unfold raiseBar
    split
    · exact h
    · rename_i before q after found
      rw [eq_append_of_splitAtQuotient found] at h
      simp only [namesIn_node, List.forall_mem_append, List.forall_mem_cons, Quotient.toExpr,
        namesIn_div] at h
      obtain ⟨left, ⟨top, bottom⟩, right⟩ := h
      have factors := namesIn_append (namesIn_append left (namesIn_factors.mpr top)) right
      exact namesIn_div.mpr ⟨namesIn_product.mpr (namesIn_filter factors), bottom⟩
  · exact h

/-! ## Shared factors -/

theorem exists_of_mem_mapM {α β : Type} {f : α → Option β} {us : List α} {vs : List β}
    (h : us.mapM f = some vs) {v : β} (member : v ∈ vs) : ∃ u ∈ us, f u = some v := by
  induction us generalizing vs with
  | nil =>
    cases h
    cases member
  | cons u us ih =>
    simp only [List.mapM_cons, Option.bind_eq_bind, Option.bind_eq_some_iff, Option.pure_def,
      Option.some.injEq] at h
    obtain ⟨w, first, others, rest, rfl⟩ := h
    rcases List.mem_cons.mp member with rfl | later
    · exact ⟨u, List.mem_cons_self, first⟩
    · obtain ⟨t, inside, found⟩ := ih rest later
      exact ⟨t, List.mem_cons_of_mem _ inside, found⟩

theorem powersIn_ofTerm (h : e.NamesIn S) : PowersIn S (FactoredTerm.ofTerm e).powers := by
  unfold FactoredTerm.ofTerm
  dsimp only
  split
  · exact powersIn_nil
  · exact powersIn_map_asPower (namesIn_factors.mpr h.asMultiple)

theorem namesIn_exponentOf? {base exponent : Expr} {ps : List Power} (h : PowersIn S ps)
    (found : exponentOf? base ps = some exponent) : exponent.NamesIn S :=
  (h _ (mem_of_exponentOf? found)).2

theorem namesIn_sharedExponent? {exponent : Expr} (h : ∀ y ∈ xs, y.NamesIn S)
    (found : sharedExponent? xs = some exponent) : exponent.NamesIn S := by
  unfold sharedExponent? at found
  split at found
  · cases found
  · split at found
    · cases found
      exact h _ List.mem_cons_self
    · split at found
      · dsimp only at found
        split at found
        · cases found
          exact namesIn_ofRat _
        · cases found
      · cases found

theorem powersIn_sharedPowers {terms : List FactoredTerm} (ht : ∀ t ∈ terms, PowersIn S t.powers)
    {seen ps : List Power} (hs : PowersIn S seen) (h : PowersIn S ps) :
    PowersIn S (sharedPowers terms seen ps) := by
  induction ps generalizing seen with
  | nil => exact hs
  | cons p ps ih =>
    obtain ⟨base, exponent⟩ := p
    obtain ⟨⟨hbase, -⟩, others⟩ := powersIn_cons.mp h
    rw [sharedPowers]
    split
    · exact ih hs others
    · split
      · rename_i shared found
        obtain ⟨exponents, all, found⟩ := Option.bind_eq_some_iff.mp found
        have each : ∀ y ∈ exponents, y.NamesIn S := by
          intro y member
          obtain ⟨t, inside, same⟩ := exists_of_mem_mapM all member
          exact namesIn_exponentOf? (ht t inside) same
        have taken := namesIn_sharedExponent? each found
        exact ih (powersIn_append.mpr
          ⟨hs, powersIn_cons.mpr ⟨⟨hbase, taken⟩, powersIn_nil⟩⟩) others
      · exact ih hs others

theorem namesIn_powerLeft? {shared : List Power} {p : Power} (h : p.1.NamesIn S ∧ p.2.NamesIn S) :
    ∀ y ∈ powerLeft? shared p, y.NamesIn S := by
  unfold powerLeft?
  split
  · simpa using namesIn_powerExpr h
  · split
    · simp
    · split
      · simpa using namesIn_powerExpr (p := (p.1, ofRat _)) ⟨h.1, namesIn_ofRat _⟩
      · simp

theorem namesIn_sharedFactor? {leadPositive : Bool} {f : SharedFactor} (h : ∀ y ∈ xs, y.NamesIn S)
    (found : sharedFactor? leadPositive xs = some f) :
    f.common.NamesIn S ∧ ∀ y ∈ f.rest, y.NamesIn S := by
  have powers : ∀ t ∈ xs.map FactoredTerm.ofTerm, PowersIn S t.powers := by
    intro t member
    obtain ⟨y, inside, rfl⟩ := List.mem_map.mp member
    exact powersIn_ofTerm (h y inside)
  unfold sharedFactor? at found
  split at found
  · rename_i first second others same
    rw [same] at powers
    simp only [Option.ite_none_left_eq_some, Option.some.injEq] at found
    obtain ⟨-, rfl⟩ := found
    have shared := powersIn_sharedPowers powers powersIn_nil (powers first List.mem_cons_self)
    refine ⟨(namesIn_product.mpr (namesIn_powerExprs shared)).scale, fun y member => ?_⟩
    obtain ⟨t, inside, rfl⟩ := List.mem_map.mp member
    refine NamesIn.scale (namesIn_product.mpr fun z within => ?_)
    obtain ⟨p, below, hz⟩ := List.mem_filterMap.mp within
    exact namesIn_powerLeft? (powers t inside p below) z hz
  · cases found

theorem namesIn_factorSharedNode (h : e.NamesIn S) : (factorSharedNode e).expr.NamesIn S := by
  unfold factorSharedNode
  split
  · split
    · rename_i found
      obtain ⟨common, rest⟩ := namesIn_sharedFactor? (namesIn_node.mp h) found
      split
      · exact h
      · exact common.times (namesIn_sum.mpr rest)
    · exact h
  · exact h

theorem namesIn_factorShared (h : e.NamesIn S) : (factorShared e).expr.NamesIn S :=
  NamesIn.everywhere (fun _ => namesIn_factorSharedNode) h

/-! ## Content, squares -/

theorem namesIn_sumForm (h : e.NamesIn S) : e.sumForm.NamesIn S :=
  namesIn_flatten (namesIn_toSums h)

theorem namesIn_descendingForm {simplify : Expr → Expr} (simple : AddsNoNames simplify)
    (h : e.NamesIn S) : (descendingForm simplify e).NamesIn S := by
  have ordered {name : String} (hn : name ∈ S) : (e.byDescendingPowers simplify name).NamesIn S := by
    unfold byDescendingPowers
    dsimp only
    split
    · split
      · exact h
      · exact namesIn_symbolicToExpr hn (termsIn_symbolic simple h ‹_›)
    · exact h
  unfold descendingForm
  split
  · rename_i name only
    have inside : name ∈ S := h name (mem_identifiers.mp (by simp [only]))
    have whole := ordered inside
    split
    · exact namesIn_zero
    · rename_i t ts same
      rw [same, namesIn_node, List.forall_mem_cons] at whole
      exact namesIn_subtractFrom (by simpa using whole.1) whole.2
    · exact namesIn_toDifferences whole
  · exact namesIn_toDifferences h

theorem namesIn_contentAndRest? {terms : List Expr} {split : Numeral × List Expr}
    (h : ∀ y ∈ terms, y.NamesIn S) (found : contentAndRest? terms = some split) :
    ∀ y ∈ split.2, y.NamesIn S := by
  unfold contentAndRest? at found
  dsimp only at found
  split at found
  · split at found
    · cases found
    · cases found
      intro y member
      obtain ⟨t, inside, rfl⟩ := List.mem_map.mp member
      obtain ⟨term, below, rfl⟩ := List.mem_map.mp inside
      exact (h term below).asMultiple.scale
  · cases found

theorem namesIn_factorContent {simplify : Expr → Expr} (simple : AddsNoNames simplify)
    (h : e.NamesIn S) : (factorContent simplify e).expr.NamesIn S := by
  have form := namesIn_sumForm h
  unfold factorContent
  split
  · rename_i terms same
    rw [same, namesIn_node] at form
    split
    · rename_i content rest found
      have descending := namesIn_descendingForm simple
        (namesIn_sum.mpr (namesIn_contentAndRest? form found))
      simpa [Step.new] using descending
    · exact h
  · exact h

theorem namesIn_termRoot? {n : Nat} {root : Expr} (h : e.NamesIn S)
    (found : e.termRoot? n = some root) : root.NamesIn S := by
  have powers := powersIn_ofTerm h
  simp only [termRoot?, Option.bind_eq_bind, Option.bind_eq_some_iff, Option.some.injEq] at found
  obtain ⟨coefficient, -, roots, all, rfl⟩ := found
  refine NamesIn.scale (namesIn_product.mpr fun y member => ?_)
  obtain ⟨r, inside, kept⟩ := List.mem_filterMap.mp member
  obtain rfl : r = some y := kept
  obtain ⟨p, below, same⟩ := exists_of_mem_mapM all inside
  have hp := powers p below
  unfold powerRoot? at same
  split at same
  · dsimp only at same
    split at same
    · cases same
    · split at same
      · cases same
        exact hp.1
      · split at same
        · cases same
        · cases same
          exact namesIn_pow.mpr ⟨hp.1, namesIn_ofRat _⟩
  · cases same

theorem namesIn_factorSquares (h : e.NamesIn S) : (factorSquares e).expr.NamesIn S := by
  have form := namesIn_sumForm h
  unfold factorSquares
  split
  · rename_i x y same
    rw [same] at form
    obtain ⟨hx, hy⟩ : x.NamesIn S ∧ y.NamesIn S := by simpa using form
    have split {p n a b : Expr} (hp : p.NamesIn S) (hn : n.NamesIn S)
        (ha : p.termRoot? 2 = some a) (hb : n.unsigned.termRoot? 2 = some b) :
        (product [Expr.sum [a, b], sub a b]).NamesIn S := by
      simp [namesIn_termRoot? hp ha, namesIn_termRoot? hn.unsigned hb]
    dsimp only
    split
    · split
      · exact split hx hy ‹_› ‹_›
      · exact h
    · split
      · exact split hy hx ‹_› ‹_›
      · exact h
    · exact h
  · exact h

/-! ## Quadratics, rational roots -/

theorem namesIn_unknown {integral : Bool} {unknown : String} {cs : List Numeral} (h : e.NamesIn S)
    (found : unknownAndCoefficients? integral e = some (unknown, cs)) : unknown ∈ S := by
  unfold unknownAndCoefficients? at found
  split at found
  · rename_i name only
    obtain ⟨cs, -, same⟩ := Option.map_eq_some_iff.mp found
    cases same
    exact h _ (mentions_of_mem_unknowns (by simp [only]))
  · cases found

theorem namesIn_linearSum {unknown : String} (hu : unknown ∈ S) (p q : Numeral) :
    (linearSum unknown p q).NamesIn S := by
  refine namesIn_toDifferences (namesIn_sum.mpr (List.forall_mem_cons.mpr ⟨?_, ?_⟩))
  · exact NamesIn.scale (namesIn_ident.mpr hu)
  · split <;> simp

theorem namesIn_multipleOfSquare {unknown : String} (hu : unknown ∈ S) {a b c : Numeral}
    {square : Expr} (factored : multipleOfSquare? unknown a b c = some square) :
    square.NamesIn S := by
  simp only [multipleOfSquare?, Option.bind_eq_bind, Option.bind_eq_some_iff,
    Option.some.injEq] at factored
  obtain ⟨_, -, p, -, q, -, rfl⟩ := factored
  have power : ∀ q, ((linearSum unknown p q).pow (ofInt 2)).NamesIn S := fun q => by
    simpa using namesIn_linearSum hu p q
  exact NamesIn.ite (power _) (namesIn_product.mpr (by simp [-namesIn_pow, power]))

theorem namesIn_splitQuadratic {unknown : String} (hu : unknown ∈ S) {a : Numeral} {r s : Rat} :
    (splitQuadratic unknown a r s).NamesIn S := by
  simp only [splitQuadratic, namesIn_product, List.mem_append]
  rintro y (scale | root)
  · split at scale
    · cases scale
    · rw [List.mem_singleton.mp scale]
      exact namesIn_number _
  · have : ∀ q, (factorOfRoot unknown q).NamesIn S := fun q => namesIn_linearSum hu _ _
    simp only [List.mem_cons, List.not_mem_nil, or_false] at root
    rcases root with rfl | rfl <;> exact this _

theorem namesIn_factorQuadraticExactly (h : e.NamesIn S) :
    (factorQuadraticExactly e).expr.NamesIn S := by
  unfold factorQuadraticExactly
  split
  · rename_i unknown a b c found
    have hu := namesIn_unknown h found
    split
    · exact h
    · dsimp only
      split
      · split
        · rename_i square factored
          exact namesIn_multipleOfSquare hu factored
        · exact h
      · split
        · exact h
        · split
          · split
            · exact namesIn_splitQuadratic hu
            · exact h
          · exact h
  · exact h

theorem namesIn_factorRationalRoot (h : e.NamesIn S) : (factorRationalRoot e).expr.NamesIn S := by
  unfold factorRationalRoot
  dsimp only
  split
  · rename_i unknown cs found
    have hu := namesIn_unknown h found
    split
    · exact h
    · split
      · split
        · rename_i quotient remainder divided
          split
          · have rest : (quotient.toExpr numeralCoefficients unknown).NamesIn S :=
              Polynomial.namesIn_toExpr (P := fun _ => True) (fun c _ => namesIn_number c) hu
                (fun _ _ => trivial)
            simpa [Step.new, factorOfRoot] using
              ⟨namesIn_linearSum hu _ _, namesIn_toDifferences rest⟩
          · exact h
        · exact h
      · exact h
  · exact h

/-! ## Normal forms -/

section NormalForm

variable {simplify : Expr → Expr}

theorem namesIn_factoredSum (simple : AddsNoNames simplify) (h : e.NamesIn S) :
    (factoredSum simplify e).NamesIn S := by
  unfold factoredSum
  dsimp only
  cases found : List.findSome? _ _ with
  | none => exact h
  | some factored =>
    obtain ⟨attempt, member, made⟩ := List.exists_of_findSome?_eq_some found
    split at made
    · cases made
      simp only [List.mem_cons, List.not_mem_nil, or_false] at member
      rcases member with rfl | rfl | rfl | rfl | rfl
      · exact namesIn_factorContent simple h
      · exact namesIn_factorSquares h
      · exact namesIn_factorQuadraticExactly h
      · exact namesIn_factorRationalRoot h
      · exact namesIn_factorShared h
    · cases made

theorem namesIn_withFactoredSums (simple : AddsNoNames simplify) (h : e.NamesIn S) :
    (withFactoredSums simplify e).NamesIn S := by
  refine namesIn_product.mpr fun y member => ?_
  obtain ⟨f, inside, within⟩ := List.mem_flatMap.mp member
  have hf := namesIn_factors.mpr h f inside
  split at within
  · exact namesIn_factors.mpr (namesIn_sumForm (namesIn_factoredSum simple hf)) y within
  · rwa [List.mem_singleton.mp within]

theorem namesIn_reduceFactoredNode (simple : AddsNoNames simplify) (h : e.NamesIn S) :
    (reduceFactoredNode simplify e).expr.NamesIn S := by
  unfold reduceFactoredNode
  split
  · obtain ⟨top, bottom⟩ : NamesIn S _ ∧ NamesIn S _ := by simpa using h
    split
    · exact h
    · dsimp only
      split
      · exact namesIn_ofSides (namesIn_withFactoredSums simple top)
          (namesIn_withFactoredSums simple bottom)
      · exact h
  · exact h

theorem namesIn_reduceFactored (simple : AddsNoNames simplify) (h : e.NamesIn S) :
    (reduceFactored simplify e).expr.NamesIn S :=
  NamesIn.everywhere (fun _ => namesIn_reduceFactoredNode simple) h

/-- Pass by pass. -/
theorem namesIn_beforeFactoring (h : e.NamesIn S) : (beforeFactoring e).NamesIn S :=
  namesIn_reduceQuotients (namesIn_orderOperands (namesIn_flatten (namesIn_trim
    (namesIn_collectLike (namesIn_distributeLoneSum (NamesIn.everywhere
      (fun _ => namesIn_expandPower _) (namesIn_normalizeCalls
        (namesIn_flatten (namesIn_toSums h)))))))))

theorem namesIn_round (simple : AddsNoNames simplify) (h : e.NamesIn S) :
    (round simplify e).NamesIn S := by
  rw [round_eq]
  exact namesIn_reduceFactored simple (namesIn_beforeFactoring h)

theorem namesIn_settle (simple : AddsNoNames simplify) (limit : Nat) (h : e.NamesIn S) :
    (settle simplify limit e).NamesIn S := by
  induction limit generalizing e with
  | zero => exact h
  | succ limit ih =>
    rw [settle]
    split
    · exact h
    · exact ih (namesIn_round simple h)

theorem namesIn_normalizeUsing (simple : AddsNoNames simplify) (options : RoundLimits)
    (h : e.NamesIn S) : (normalizeUsing simplify options e).expr.NamesIn S :=
  namesIn_toDifferences (namesIn_settle simple _ (namesIn_toSums h))

end NormalForm

theorem normalFormClosed_addsNoNames : AddsNoNames normalFormClosed := fun _ _ h =>
  namesIn_normalizeUsing (fun _ _ h => h) _ h

theorem namesIn_normalizeWithin (options : RoundLimits) (h : e.NamesIn S) :
    (normalizeWithin options e).expr.NamesIn S :=
  namesIn_normalizeUsing normalFormClosed_addsNoNames options h

theorem namesIn_normalForm (h : e.NamesIn S) : (normalForm e).NamesIn S :=
  namesIn_normalizeWithin {} h

theorem normalForm_addsNoNames : AddsNoNames normalForm := fun _ _ => namesIn_normalForm

end SymbolicAlgebra
