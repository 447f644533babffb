import Mathlib.Data.Option.Basic
import SymbolicAlgebra.Calculus.PartsOrder
import SymbolicAlgebra.Proofs.DerivativeRules
import SymbolicAlgebra.Proofs.FactoringIdentifiers

/-! The identifiers of derivatives, of what takes part in a substitution and of the parts of a
product. -/
namespace SymbolicAlgebra

open SymbolicAlgebra.Expr

variable {S : Set String} {x : String} {e : Expr}

/-! ## Derivatives -/

section Rules

variable {a b da db u : Expr}

theorem NamedFunction.namesIn_derivativeAt? {f : NamedFunction} {outer : Expr} (h : u.NamesIn S)
    (found : f.derivativeAt? u = some outer) : outer.NamesIn S := by
  unfold derivativeAt? at found
  split at found <;> cases found <;>
    simp [squared, reciprocal, squareRoot, NamesIn.negate, h]

theorem namesIn_quotientDerivative (ha : a.NamesIn S) (hb : b.NamesIn S) (hda : da.NamesIn S)
    (hdb : db.NamesIn S) : (quotientDerivative a b da db).NamesIn S := by
  simp [quotientDerivative, ha, hb, hda, hdb]

theorem namesIn_powerDerivative (ha : a.NamesIn S) (hb : b.NamesIn S) (hda : da.NamesIn S) :
    (powerDerivative a b da).NamesIn S := by
  unfold powerDerivative
  split <;> simp_all

theorem namesIn_exponentialDerivative (ha : a.NamesIn S) (hb : b.NamesIn S) (hdb : db.NamesIn S) :
    (exponentialDerivative a b db).NamesIn S := by
  unfold exponentialDerivative
  split <;> simp [ha, hb, hdb]

theorem namesIn_generalPowerDerivative (ha : a.NamesIn S) (hb : b.NamesIn S) (hda : da.NamesIn S)
    (hdb : db.NamesIn S) : (generalPowerDerivative a b da db).NamesIn S := by
  simp [generalPowerDerivative, ha, hb, hda, hdb]

end Rules

/-- No rule brings in an identifier, not even the one of the derivative. -/
theorem derivativeRules_namesIn (S : Set String) (x : String) :
    DerivativeRules x fun e d => e.NamesIn S → d.NamesIn S where
  constant := fun _ _ => namesIn_zero
  symbol := fun _ => namesIn_one
  sum {ts ds} each h := by
    refine namesIn_sum.mpr ?_
    induction each with
    | nil => simp
    | cons first _ ih =>
      obtain ⟨here, there⟩ := List.forall_mem_cons.mp (namesIn_node.mp h)
      exact List.forall_mem_cons.mpr ⟨first here, ih (namesIn_node.mpr there)⟩
  sub ha hb h := by
    obtain ⟨left, right⟩ := namesIn_sub.mp h
    exact namesIn_sub.mpr ⟨ha left, hb right⟩
  single ha h := ha (by simpa using h)
  accumulated ha h := ha (by simpa [and_assoc] using h)
  times ha hb h := by
    obtain ⟨left, right⟩ : NamesIn S _ ∧ NamesIn S _ := by simpa using h
    simp [left, right, ha left, hb right]
  quotient ha hb h := by
    obtain ⟨top, bottom⟩ := namesIn_div.mp h
    exact namesIn_quotientDerivative top bottom (ha top) (hb bottom)
  quotient_constant ha _ h := by
    obtain ⟨top, bottom⟩ := namesIn_div.mp h
    exact namesIn_div.mpr ⟨ha top, bottom⟩
  power hb _ h := by
    obtain ⟨base, exponent⟩ := namesIn_pow.mp h
    exact namesIn_powerDerivative base exponent (hb base)
  exponential hc _ h := by
    obtain ⟨base, exponent⟩ := namesIn_pow.mp h
    exact namesIn_exponentialDerivative base exponent (hc exponent)
  general_power hb hc h := by
    obtain ⟨base, exponent⟩ := namesIn_pow.mp h
    exact namesIn_generalPowerDerivative base exponent (hb base) (hc exponent)
  call hu found h := by
    have argument := namesIn_apply.mp h
    simp [NamedFunction.namesIn_derivativeAt? argument found, hu argument]
  log ht hb h := by
    obtain ⟨base, argument⟩ : NamesIn S _ ∧ NamesIn S _ := by simpa using h
    exact namesIn_quotientDerivative (namesIn_ln.mpr argument) (namesIn_ln.mpr base)
      (ht (namesIn_ln.mpr argument)) (by simp [reciprocal, base, hb base])
  log_constant hu _ h := by
    obtain ⟨base, argument⟩ : NamesIn S _ ∧ NamesIn S _ := by simpa using h
    simp [base, argument, hu argument]

theorem namesIn_derivative {d : Expr} (h : e.NamesIn S) (found : derivative x e = .ok d) :
    d.NamesIn S := by
  unfold derivative at found
  cases raw : e.rawDerivative x with
  | error reason =>
    rw [raw] at found
    cases found
  | ok slope =>
    rw [raw] at found
    cases found
    exact namesIn_normalForm ((derivativeRules_namesIn S x).rawDerivative raw h)

/-! ## Candidates -/

/-- What is added depends on the symbol. -/
theorem namesIn_pushCandidate {found : List Expr}
    (hf : ∀ c ∈ found, c.NamesIn S ∧ c.mentions x = true) (h : e.NamesIn S) :
    ∀ c ∈ pushCandidate x found e, c.NamesIn S ∧ c.mentions x = true := by
  unfold pushCandidate
  split
  · rename_i new
    rw [Bool.and_eq_true, Bool.and_eq_true] at new
    exact List.forall_mem_append.mpr ⟨hf, List.forall_mem_singleton.mpr ⟨h, new.1.1⟩⟩
  · exact hf

theorem namesIn_rootCandidates (h : e.NamesIn S) : ∀ c ∈ Expr.rootCandidates x e, c.NamesIn S := by
  unfold Expr.rootCandidates
  split
  · exact List.forall_mem_cons.mpr ⟨h, namesIn_call.mp h⟩
  · split <;> simp_all
  · simp_all
  · simp

theorem namesIn_foldl_pushCandidate {found cs : List Expr}
    (hf : ∀ c ∈ found, c.NamesIn S ∧ c.mentions x = true) (h : ∀ c ∈ cs, c.NamesIn S) :
    ∀ c ∈ cs.foldl (pushCandidate x) found, c.NamesIn S ∧ c.mentions x = true := by
  induction cs generalizing found with
  | nil => exact hf
  | cons c cs ih =>
    obtain ⟨here, there⟩ := List.forall_mem_cons.mp h
    exact ih (namesIn_pushCandidate hf here) there

theorem namesIn_collectAllCandidates {found xs : List Expr}
    (hf : ∀ c ∈ found, c.NamesIn S ∧ c.mentions x = true)
    (each : ∀ y ∈ xs, ∀ {found : List Expr}, (∀ c ∈ found, c.NamesIn S ∧ c.mentions x = true) →
      ∀ c ∈ collectCandidates x found y, c.NamesIn S ∧ c.mentions x = true) :
    ∀ c ∈ collectAllCandidates x found xs, c.NamesIn S ∧ c.mentions x = true := by
  induction xs generalizing found with
  | nil => exact hf
  | cons y ys ih =>
    exact ih (each y List.mem_cons_self hf)
      fun z member => each z (List.mem_cons_of_mem y member)

theorem namesIn_collectCandidates {found : List Expr}
    (hf : ∀ c ∈ found, c.NamesIn S ∧ c.mentions x = true) (h : e.NamesIn S) :
    ∀ c ∈ collectCandidates x found e, c.NamesIn S ∧ c.mentions x = true := by
  induction e generalizing found with
  | call f xs ih =>
    exact namesIn_collectAllCandidates
      (namesIn_foldl_pushCandidate hf (namesIn_rootCandidates h))
      fun y member _ hf => ih y member hf (namesIn_call.mp h y member)
  | node op xs ih =>
    exact namesIn_collectAllCandidates
      (namesIn_foldl_pushCandidate hf (namesIn_rootCandidates h))
      fun y member _ hf => ih y member hf (namesIn_node.mp h y member)
  | _ => exact hf

/-- Candidates are over the names of the expression and depend on the symbol. -/
theorem namesIn_candidates {limit : Nat} (h : e.NamesIn S) :
    ∀ c ∈ e.candidates x limit, c.NamesIn S ∧ c.mentions x = true := fun c member =>
  namesIn_collectCandidates (by simp) h c (List.mem_of_mem_take member)

/-! ## Substitutions -/

/-- The factors without the symbol are over the other names. -/
theorem namesIn_free (h : e.NamesIn (insert x S)) : (freeAndBound x e).1.NamesIn S := by
  rw [freeAndBound, List.partition_eq_filter_filter]
  refine namesIn_product.mpr fun f member => ?_
  obtain ⟨inside, absent⟩ := List.mem_filter.mp member
  exact (namesIn_factors.mpr h f inside).of_insert (by simpa using absent)

theorem namesIn_bound (h : e.NamesIn S) : (freeAndBound x e).2.NamesIn S := by
  rw [freeAndBound, List.partition_eq_filter_filter]
  exact namesIn_product.mpr (namesIn_filter (namesIn_factors.mpr h))

theorem namesIn_variableOfLinear? {candidate u inverse : Expr} (hc : candidate.NamesIn S)
    (hu : u.NamesIn S) (found : variableOfLinear? x candidate u = some inverse) :
    inverse.NamesIn S := by
  unfold variableOfLinear? at found
  dsimp only at found
  split at found
  · rename_i p read
    have coefficient := namesIn_symbolicCoeff normalForm_addsNoNames hc read
    split at found
    · cases found
      simp [hu, coefficient]
    · cases found
  · cases found

theorem namesIn_inNewSymbol? {candidate u result g : Expr} (hc : candidate.NamesIn S)
    (hu : u.NamesIn S) (hr : result.NamesIn S)
    (found : inNewSymbol? x candidate u result = some g) : g.NamesIn S := by
  obtain ⟨found, -⟩ := Option.filter_eq_some_iff.mp found
  split at found
  · obtain ⟨inverse, linear, rfl⟩ := Option.map_eq_some_iff.mp found
    have put := namesIn_variableOfLinear? hc hu linear
    exact namesIn_normalForm (NamesIn.replaceIdent (hr.mono (Set.subset_insert x S)) put)
  · cases found
    exact namesIn_normalForm hr

/-- The new symbol is the one identifier that a substitution brings in, and its scale is free of
it. -/
theorem namesIn_substitution? {candidate : Expr} {s : Substitution} (hc : candidate.NamesIn S)
    (h : e.NamesIn S) (found : substitution? x candidate e = some s) :
    s.scale.NamesIn S ∧ s.integrand.NamesIn (insert s.symbol S) := by
  unfold substitution? at found
  split at found
  · cases found
  · rename_i slope known
    have hs := namesIn_derivative hc known
    split at found
    · cases found
    · obtain ⟨g, rewritten, rfl⟩ := Option.map_eq_some_iff.mp found
      generalize freshName e.identifiers = u at rewritten ⊢
      have wider {e : Expr} (h : e.NamesIn S) : e.NamesIn (insert u S) :=
        h.mono (Set.subset_insert u S)
      have hu : (ident u).NamesIn (insert u S) := namesIn_ident.mpr (Set.mem_insert u S)
      have hg : g.NamesIn (insert u S) := by
        rcases (Option.orElse_eq_some ..).mp rewritten with replacedFirst | ⟨-, dividedFirst⟩
        · have replaced : (Expr.replace candidate (ident u) e).expr.NamesIn (insert u S) :=
            (wider h).replace hu
          exact namesIn_inNewSymbol? (wider hc) hu
            (namesIn_normalForm (namesIn_div.mpr ⟨replaced, wider hs⟩)) replacedFirst
        · have divided := namesIn_normalForm (namesIn_div.mpr ⟨h, hs⟩)
          exact namesIn_inNewSymbol? (wider hc) hu ((wider divided).replace hu) dividedFirst
      have rest := hg.asMultiple
      exact ⟨(namesIn_free rest).scale, namesIn_bound rest⟩

/-! ## Parts -/

theorem namesIn_orderParts? {a b : Expr} {parts : Parts} (ha : a.NamesIn S) (hb : b.NamesIn S)
    (found : orderParts? x a b = some parts) : parts.u.NamesIn S ∧ parts.dv.NamesIn S := by
  unfold orderParts? at found
  split at found
  · cases found
    split
    · exact ⟨hb, ha⟩
    · exact ⟨ha, hb⟩
  · cases found

theorem namesIn_partsOf? {parts : Parts} (h : e.NamesIn S) (found : partsOf? x e = some parts) :
    parts.u.NamesIn S ∧ parts.dv.NamesIn S := by
  have factors := namesIn_factors.mpr h
  unfold partsOf? at found
  split at found
  case h_1 => cases found
  case h_2 f same =>
    split at found
    · split at found
      · cases found
        exact ⟨factors f (by simp [same]), namesIn_one⟩
      · cases found
    · cases found
  case h_3 a b same =>
    exact namesIn_orderParts? (factors a (by simp [same])) (factors b (by simp [same])) found
  case h_4 =>
    split at found
    · obtain ⟨u, place, rfl⟩ := Option.map_eq_some_iff.mp found
      exact ⟨factors u (List.mem_of_getElem? place),
        namesIn_product.mpr fun y member => factors y (List.mem_of_mem_eraseIdx member)⟩
    · cases found

end SymbolicAlgebra
