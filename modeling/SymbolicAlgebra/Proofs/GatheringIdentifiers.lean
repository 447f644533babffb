import SymbolicAlgebra.Proofs.RuleIdentifiers

/-! Gathering like terms, like factors and common factors of quotients brings in no identifier. -/
namespace SymbolicAlgebra

open SymbolicAlgebra.Expr

variable {S : Set String} {e a b : Expr} {xs : List Expr}

theorem mem_of_mem_eraseBoth {α : Type} {ys : List α} {i j : Nat} {y : α}
    (h : y ∈ eraseBoth ys i j) : y ∈ ys :=
  List.mem_of_mem_eraseIdx (List.mem_of_mem_eraseIdx h)

/-! ## Sums -/

def TermGroup.NamesIn (S : Set String) (g : TermGroup) : Prop :=
  g.rest.NamesIn S ∧ ∀ term ∈ g.asWritten, term.NamesIn S

theorem TermGroup.NamesIn.toExpr {g : TermGroup} (h : g.NamesIn S) : g.toExpr.NamesIn S := by
  unfold TermGroup.toExpr
  split
  · exact h.2 _ ‹_›
  · exact h.1.scale

theorem namesIn_insertTerm {term : Expr} {groups : List TermGroup} (ht : term.NamesIn S)
    (h : ∀ g ∈ groups, g.NamesIn S) :
    ∀ g ∈ TermGroup.insert term term.asMultiple groups, g.NamesIn S := by
  induction groups with
  | nil => simpa [TermGroup.insert] using ⟨ht.asMultiple, by simpa using ht⟩
  | cons g gs ih =>
    obtain ⟨first, others⟩ := List.forall_mem_cons.mp h
    rw [TermGroup.insert]
    split
    · exact List.forall_mem_cons.mpr ⟨⟨first.1, by simp⟩, others⟩
    · exact List.forall_mem_cons.mpr ⟨first, ih others⟩

theorem namesIn_gatherTerms (h : ∀ y ∈ xs, y.NamesIn S) :
    ∀ g ∈ TermGroup.gather xs, g.NamesIn S := by
  refine List.foldlRecOn (motive := fun groups : List TermGroup => ∀ g ∈ groups, g.NamesIn S) xs _
    (by simp) ?_
  intro groups hg term member
  exact namesIn_insertTerm (h term member) hg

theorem namesIn_convertSquares? {n remaining : Numeral} {groups rest : List TermGroup}
    (h : ∀ g ∈ groups, g.NamesIn S) (found : convertSquares? n groups = some (rest, remaining)) :
    ∀ g ∈ rest, g.NamesIn S := by
  induction groups generalizing rest with
  | nil => cases found
  | cons g gs ih =>
    obtain ⟨first, others⟩ := List.forall_mem_cons.mp h
    rw [convertSquares?] at found
    dsimp only at found
    split at found
    · rename_i converted
      cases found
      obtain ⟨⟨f, u⟩, square, converted⟩ := Option.bind_eq_some_iff.mp converted
      obtain ⟨⟨k, c, m⟩, -, same⟩ := Option.map_eq_some_iff.mp converted
      cases same
      have hu : u.NamesIn S := by
        have whole := first.1
        rw [eq_of_callOfSquare? square] at whole
        simpa [callSquared] using whole
      refine List.forall_mem_cons.mpr ⟨⟨?_, nofun⟩, others⟩
      simpa [callSquared] using hu
    · obtain ⟨⟨tail, m⟩, inner, same⟩ := Option.map_eq_some_iff.mp found
      cases same
      exact List.forall_mem_cons.mpr ⟨first, ih others inner⟩

theorem namesIn_useSquareIdentity? {groups rest : List TermGroup} {constant value : Option Numeral}
    (h : ∀ g ∈ groups, g.NamesIn S)
    (found : useSquareIdentity? groups constant = some (rest, value)) : ∀ g ∈ rest, g.NamesIn S := by
  unfold useSquareIdentity? at found
  split at found
  · rename_i dropped
    cases found
    obtain ⟨i, j, -, pair⟩ := exists_of_firstPair? dropped
    split at pair
    · obtain ⟨c, -, same⟩ := Option.map_eq_some_iff.mp pair
      cases same
      exact fun g member => h g (mem_of_mem_eraseBoth member)
    · cases pair
  · split at found
    · split at found
      · obtain ⟨⟨gs, m⟩, converted, same⟩ := Option.map_eq_some_iff.mp found
        cases same
        exact namesIn_convertSquares? h converted
      · cases found
    · cases found

theorem namesIn_addedConstant (h : ∀ y ∈ xs, y.NamesIn S) :
    ∀ c ∈ addedConstant xs, c.NamesIn S := by
  unfold addedConstant
  split <;> simp_all

theorem namesIn_collectAddends (folded : Bool) (h : ∀ y ∈ xs, y.NamesIn S) :
    (collectAddends folded xs).expr.NamesIn S := by
  have build {groups : List TermGroup} {constant : Option Expr} (hg : ∀ g ∈ groups, g.NamesIn S)
      (hc : ∀ c ∈ constant, c.NamesIn S) :
      (Expr.sum ((groups.map TermGroup.toExpr).filter (fun e => !e.isZero) ++
        constant.toList)).NamesIn S := by
    refine namesIn_sum.mpr (namesIn_append (namesIn_filter ?_) (by simpa using hc))
    intro y member
    obtain ⟨g, inside, rfl⟩ := List.mem_map.mp member
    exact (hg g inside).toExpr
  have groups := namesIn_gatherTerms (namesIn_filter (p := fun y => !y.isAddedConstant) h)
  have constant := namesIn_addedConstant (namesIn_filter (p := Expr.isAddedConstant) h)
  unfold collectAddends
  simp only [List.partition_eq_filter_filter]
  split
  · exact namesIn_nan
  · split
    · rename_i rest value identity
      split at identity
      · cases identity
      · refine build (namesIn_useSquareIdentity? groups identity) fun c member => ?_
        obtain ⟨n, -, rfl⟩ := Option.map_eq_some_iff.mp member
        exact namesIn_ofNumeral n
    · exact build groups constant

theorem namesIn_collectSum (h : ∀ y ∈ xs, y.NamesIn S) : (collectSum xs).expr.NamesIn S := by
  unfold collectSum
  split
  · exact namesIn_nan
  · split
    · exact namesIn_collectAddends _ (namesIn_append (namesIn_filter h) (by simp))
    · exact namesIn_collectAddends _ h

/-! ## Products -/

def FactorGroup.NamesIn (S : Set String) (g : FactorGroup) : Prop :=
  g.base.NamesIn S ∧ (∀ y ∈ g.exponents, y.NamesIn S) ∧ ∀ factor ∈ g.asWritten, factor.NamesIn S

theorem FactorGroup.NamesIn.toExpr? {g : FactorGroup} (h : g.NamesIn S) :
    ∀ factor ∈ g.toExpr?, factor.NamesIn S := by
  have exponent : (exponentSum g.exponents).NamesIn S := by
    unfold exponentSum
    split
    · exact namesIn_ofRat _
    · exact namesIn_sum.mpr h.2.1
  unfold FactorGroup.toExpr?
  split
  · rename_i factor written
    simpa using h.2.2 factor written
  · unfold powerFactor
    split
    · simp
    · split
      · simpa using h.1
      · simpa using ⟨h.1, exponent⟩

theorem namesIn_insertFactor {factor : Expr} {groups : List FactorGroup} (hf : factor.NamesIn S)
    (h : ∀ g ∈ groups, g.NamesIn S) :
    ∀ g ∈ FactorGroup.insert factor factor.asPower groups, g.NamesIn S := by
  obtain ⟨base, exponent⟩ := hf.asPower
  induction groups with
  | nil =>
    simpa [FactorGroup.insert] using
      ⟨base, by simpa using exponent, by simpa using hf⟩
  | cons g gs ih =>
    obtain ⟨first, others⟩ := List.forall_mem_cons.mp h
    rw [FactorGroup.insert]
    split
    · exact List.forall_mem_cons.mpr
        ⟨⟨first.1, namesIn_append first.2.1 (by simpa using exponent), nofun⟩, others⟩
    · exact List.forall_mem_cons.mpr ⟨first, ih others⟩

theorem namesIn_gatherFactors (h : ∀ y ∈ xs, y.NamesIn S) :
    ∀ g ∈ FactorGroup.gather xs, g.NamesIn S := by
  refine List.foldlRecOn (motive := fun groups : List FactorGroup => ∀ g ∈ groups, g.NamesIn S) xs _
    (by simp) ?_
  intro groups hg factor member
  exact namesIn_insertFactor (h factor member) hg

theorem namesIn_callProduct? {result : Expr} (ha : a.NamesIn S)
    (found : a.callProduct? b = some (some result)) : result.NamesIn S := by
  unfold Expr.callProduct? at found
  split at found
  · split at found
    · obtain ⟨product, -, same⟩ := Option.map_eq_some_iff.mp found
      obtain ⟨f, -, rfl⟩ := Option.map_eq_some_iff.mp same
      simpa using ha
    · cases found
  · cases found

theorem namesIn_reduceCalls? {reduced : List Expr} (h : ∀ y ∈ xs, y.NamesIn S)
    (found : reduceCalls? xs = some reduced) : ∀ y ∈ reduced, y.NamesIn S := by
  obtain ⟨i, j, -, pair⟩ := exists_of_firstPair? found
  have kept : ∀ y ∈ eraseBoth xs i j, y.NamesIn S := fun y member => h y (mem_of_mem_eraseBoth member)
  split at pair
  · rename_i a b ha hb
    obtain ⟨result, product, same⟩ := Option.map_eq_some_iff.mp pair
    cases result with
    | none =>
      cases same
      exact kept
    | some r =>
      cases same
      have hr := namesIn_callProduct? (h a (List.mem_of_getElem? ha)) product
      intro y member
      rcases List.eq_or_mem_of_mem_insertIdx member with rfl | inside
      · exact hr
      · exact kept y inside
  · cases pair

theorem namesIn_collectFactors (folded : Bool) (h : ∀ y ∈ xs, y.NamesIn S) :
    (collectFactors folded xs).expr.NamesIn S := by
  have powers : ∀ y ∈ (FactorGroup.gather (xs.filter fun y => !y.isNumber)).filterMap
      FactorGroup.toExpr?, y.NamesIn S := by
    intro y member
    obtain ⟨g, inside, hy⟩ := List.mem_filterMap.mp member
    exact (namesIn_gatherFactors (namesIn_filter h) g inside).toExpr? y hy
  have out : ∀ y ∈ (reduceCalls? ((FactorGroup.gather (xs.filter fun y => !y.isNumber)).filterMap
      FactorGroup.toExpr?)).getD ((FactorGroup.gather (xs.filter fun y => !y.isNumber)).filterMap
      FactorGroup.toExpr?), y.NamesIn S := by
    cases reduced : reduceCalls? _ with
    | none => exact powers
    | some ys => exact namesIn_reduceCalls? powers reduced
  unfold collectFactors
  simp only [List.partition_eq_filter_filter]
  split
  · exact namesIn_nan
  · split
    · exact namesIn_zero
    · split
      · exact namesIn_product.mpr out
      · exact namesIn_product.mpr (List.forall_mem_cons.mpr ⟨namesIn_number _, out⟩)

theorem namesIn_collectProduct (h : ∀ y ∈ xs, y.NamesIn S) :
    (collectProduct xs).expr.NamesIn S := by
  unfold collectProduct
  split
  · refine namesIn_collectFactors _ (List.forall_mem_cons.mpr ⟨?_, namesIn_filter h⟩)
    split <;> simp
  · exact namesIn_collectFactors _ h

/-! ## Powers, quotients, integers -/

theorem namesIn_simplifyIntegerPower {n : Int} (ha : a.NamesIn S) (hb : b.NamesIn S) :
    (simplifyIntegerPower a n b).expr.NamesIn S := by
  unfold simplifyIntegerPower
  repeat' split
  all_goals simp_all [Step.new, Step.same]

theorem namesIn_simplifySymbolicPower (ha : a.NamesIn S) (hb : b.NamesIn S) :
    (simplifySymbolicPower a b).expr.NamesIn S := by
  unfold simplifySymbolicPower
  split
  · exact namesIn_simplifyIntegerPower ha hb
  · split
    · exact hb.argument? ‹_›
    · exact namesIn_pow.mpr ⟨ha, hb⟩

theorem namesIn_simplifyPower (ha : a.NamesIn S) (hb : b.NamesIn S) :
    (simplifyPower a b).expr.NamesIn S := by
  have same := namesIn_pow.mpr ⟨ha, hb⟩
  unfold simplifyPower
  split
  · split
    · split
      · exact namesIn_ofComplex _
      · exact same
    · exact namesIn_simplifySymbolicPower ha hb
  · split
    · unfold simplifyNumeralPower
      dsimp only
      repeat' split
      all_goals simp_all [Step.new, Step.same]
    · exact namesIn_simplifySymbolicPower ha hb
  · exact namesIn_simplifySymbolicPower ha hb

theorem namesIn_constantQuotient? {c : Expr} (found : constantQuotient? a b = some c) :
    c.NamesIn S := by
  unfold constantQuotient? at found
  split at found
  · split at found
    · split at found <;> cases found
      exact namesIn_ofComplex _
    · cases found
  · cases found

theorem namesIn_collectLike (h : e.NamesIn S) : (collectLike e).expr.NamesIn S := by
  refine NamesIn.everywhere (fun e h => ?_) h
  unfold collectNode
  split
  case h_1 => exact namesIn_collectSum (namesIn_node.mp h)
  case h_2 => exact namesIn_collectProduct (namesIn_node.mp h)
  case h_3 =>
    obtain ⟨base, exponent⟩ : NamesIn S _ ∧ NamesIn S _ := by simpa using h
    exact namesIn_simplifyPower base exponent
  case h_5 =>
    unfold simplifyDifference
    split
    · exact namesIn_number _
    · dsimp only
      split
      · dsimp only [Step.new]
        split <;> simp
      · exact h
  case h_7 =>
    unfold simplifyQuotient
    split
    · exact namesIn_constantQuotient? ‹_›
    · exact h
  case h_9 =>
    unfold simplifyIntegers
    split
    · exact namesIn_ofInt _
    · exact h
  all_goals exact h

end SymbolicAlgebra
