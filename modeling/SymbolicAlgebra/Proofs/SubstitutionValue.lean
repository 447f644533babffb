import Mathlib.Data.List.Nodup
import Mathlib.Data.List.Perm.Subperm
import SymbolicAlgebra.Calculus.ChangeOfVariable
import SymbolicAlgebra.Proofs.DecimalText
import SymbolicAlgebra.Proofs.DerivativeIdentifiers
import SymbolicAlgebra.Proofs.Evaluation
import SymbolicAlgebra.Proofs.IdentifierValues
import SymbolicAlgebra.Proofs.Multiples
import SymbolicAlgebra.Proofs.PolynomialSlope

/-! A substitution keeps the value of the integrand: with the new symbol for the candidate, scale and
integrand times the derivative of the candidate are the expression. The new symbol does not occur in
the expression; it may occur in the candidate, and then the substitution is wrong. -/
namespace SymbolicAlgebra

/-! ## The new symbol -/

theorem substitutionName_injective : Function.Injective substitutionName := by
  have digits {m n : Nat} (same : toString m = toString n) : m = n := by
    have chars := congrArg String.toList same
    rw [toList_toString_nat, toList_toString_nat] at chars
    rw [← digitsValue_toDigits m, chars, digitsValue_toDigits]
  have nonempty (n : Nat) : "u" ++ toString n ≠ "u" := by
    intro same
    have chars := congrArg String.toList same
    rw [String.toList_append, toList_toString_nat] at chars
    simp at chars
  intro m n same
  unfold substitutionName at same
  split at same <;> split at same
  · omega
  · exact absurd same.symm (nonempty n)
  · exact absurd same (nonempty m)
  · exact digits (String.append_right_inj "u" |>.mp same)

theorem substitutionName_ne_e (n : Nat) : "e" ≠ substitutionName n := by
  intro same
  have chars := congrArg String.toList same
  unfold substitutionName at chars
  split at chars
  · cases chars
  · rw [String.toList_append] at chars
    cases chars

/-- There are more names than are taken. -/
theorem freshName_spec (taken : List String) :
    freshName taken ∉ taken ∧ ∃ n, freshName taken = substitutionName n := by
  let names := (List.range (taken.length + 1)).map substitutionName
  have distinct : names.Nodup := List.Nodup.map substitutionName_injective List.nodup_range
  cases found : names.find? fun n => !taken.contains n with
  | none =>
    have all : names ⊆ taken := fun name member => by
      simpa using List.find?_eq_none.mp found name member
    have short := (distinct.subperm all).length_le
    simp [names] at short
  | some name =>
    have same : freshName taken = name := by
      rw [freshName, found]
      rfl
    obtain ⟨n, -, rfl⟩ := List.mem_map.mp (List.mem_of_find?_eq_some found)
    rw [same]
    exact ⟨by simpa using List.find?_some found, n, rfl⟩

/-! ## Substitutions that simplify by a given rule -/

section Simplify

variable (simplify : Expr → Expr)

/-- The variable of a linear candidate in terms of its value. -/
def variableOfLinearUsing? (x : String) (candidate u : Expr) : Option Expr :=
  let R := symbolicCoefficients simplify
  match Polynomial.ofExpr? R x candidate with
  | some p =>
    if p.degree? = some 1 then
      some (.div (.sub u (p.coeff R.toCoefficientRing 0)) (p.coeff R.toCoefficientRing 1))
    else none
  | none => none

/-- An integrand over the new symbol, rid of the old one. -/
def inNewSymbolUsing? (x : String) (candidate u result : Expr) : Option Expr :=
  let result :=
    if result.mentions x then
      (variableOfLinearUsing? simplify x candidate u).map fun inverse =>
        simplify (result.replaceIdent x inverse).expr
    else some (simplify result)
  result.filter fun e => !e.mentions x && !e.isNaN

/-- The substitution with `simplify` for every normal form. -/
def substitutionUsing? (x : String) (candidate e : Expr) : Option Substitution :=
  match (candidate.rawDerivative x).map simplify with
  | .error _ => none
  | .ok slope =>
    if slope.isZero || slope.isNaN then none
    else
      let symbol := freshName e.identifiers
      let u := Expr.ident symbol
      let inNewSymbol := inNewSymbolUsing? simplify x candidate u
      let result :=
        inNewSymbol (simplify (.div (Expr.replace candidate u e).expr slope)) <|>
          inNewSymbol (Expr.replace candidate u (simplify (.div e slope))).expr
      result.map fun g =>
        let (coefficient, rest) := g.asMultiple
        let (free, integrand) := freeAndBound symbol rest
        { candidate, symbol, scale := .scale coefficient free, integrand }

end Simplify

theorem substitution?_eq : substitution? = substitutionUsing? normalForm := rfl

/-- The normal form, where the run to it is sound. -/
def soundForm (e : Expr) : Expr := if FactorsOnce {} e then normalForm e else e

/-- Every run that simplifies something for the substitution is sound, and no exponent leaves the
word while the candidate is read as a polynomial. -/
def SubstitutesOnce (x : String) (candidate e : Expr) : Prop :=
  substitution? x candidate e = substitutionUsing? soundForm x candidate e ∧
    Polynomial.inWords (symbolicCoefficients soundForm) x candidate = true

/-! ## Names -/

variable {simplify : Expr → Expr} {x : String} {candidate e : Expr}

/-- What a substitution is made of: an integrand in the new symbol, split into a multiple and the
factors with the symbol. -/
theorem exists_of_substitutionUsing? {s : Substitution}
    (found : substitutionUsing? simplify x candidate e = some s) :
    ∃ d g, candidate.rawDerivative x = .ok d ∧ s.symbol = freshName e.identifiers ∧
      (inNewSymbolUsing? simplify x candidate (.ident s.symbol)
          (simplify (.div (Expr.replace candidate (.ident s.symbol) e).expr (simplify d))) = some g ∨
        inNewSymbolUsing? simplify x candidate (.ident s.symbol)
          (Expr.replace candidate (.ident s.symbol) (simplify (.div e (simplify d)))).expr = some g) ∧
      s.scale = .scale g.asMultiple.1 (freeAndBound s.symbol g.asMultiple.2).1 ∧
      s.integrand = (freeAndBound s.symbol g.asMultiple.2).2 := by
  unfold substitutionUsing? at found
  cases raw : candidate.rawDerivative x with
  | error reason =>
    rw [raw] at found
    cases found
  | ok d =>
    rw [raw] at found
    dsimp only [Except.map] at found
    split at found
    · cases found
    · obtain ⟨g, made, rfl⟩ := Option.map_eq_some_iff.mp found
      refine ⟨d, g, rfl, rfl, ?_, rfl, rfl⟩
      rcases (Option.orElse_eq_some ..).mp made with first | ⟨-, second⟩
      · exact .inl first
      · exact .inr second

theorem free_of_inNewSymbolUsing? {u result g : Expr}
    (found : inNewSymbolUsing? simplify x candidate u result = some g) : g.mentions x = false := by
  obtain ⟨-, kept⟩ := Option.filter_eq_some_iff.mp found
  rw [Bool.and_eq_true, Bool.not_eq_true'] at kept
  exact kept.1

/-- The new symbol does not occur in the expression, nor in the scale; the old one occurs in neither
scale nor integrand. -/
theorem names_of_substitutionUsing? {s : Substitution}
    (found : substitutionUsing? simplify x candidate e = some s) :
    e.mentions s.symbol = false ∧ s.scale.mentions x = false ∧ s.integrand.mentions x = false ∧
      s.scale.mentions s.symbol = false := by
  obtain ⟨d, g, -, symbol, made, scale, integrand⟩ := exists_of_substitutionUsing? found
  have free : g.mentions x = false := made.elim free_of_inNewSymbolUsing? free_of_inNewSymbolUsing?
  have rest : g.asMultiple.2.NamesIn {n | n ≠ x} := (Expr.namesIn_others.mpr free).asMultiple
  rw [scale, integrand]
  refine ⟨?_, ?_, Expr.namesIn_others.mp (namesIn_bound rest), ?_⟩
  · rw [← Bool.not_eq_true, ← Expr.mem_identifiers, symbol]
    exact (freshName_spec e.identifiers).1
  · exact Expr.namesIn_others.mp (namesIn_free (rest.mono (Set.subset_insert _ _))).scale
  · exact Expr.namesIn_others.mp (namesIn_free fun name _ => Classical.em (name = s.symbol)).scale

namespace Reading

variable {K : Type*} [Field K] {R : Reading K}

/-! ## Values -/

theorem freeAndBound_spec (h : R.Defined e) :
    (R.Defined (freeAndBound x e).1 ∧ R.Defined (freeAndBound x e).2) ∧
      R.val (freeAndBound x e).1 * R.val (freeAndBound x e).2 = R.val e := by
  have factors := (defined_factors e).mpr h
  rw [freeAndBound, List.partition_eq_filter_filter]
  simp only [defined_product, val_product]
  refine ⟨⟨defined_filter factors, defined_filter factors⟩, ?_⟩
  rw [mul_comm, ← prod_factors e]
  exact prod_filter_mul_prod_filter_not _ _

variable [CharZero K]

theorem soundForm_keeps (laws : R.Lawful) (e : Expr) : R.Keeps e (soundForm e) := by
  unfold soundForm
  split
  · rename_i once
    exact normalizeWithin_keeps laws once
  · exact Keeps.refl e

/-- The old symbol in terms of the new one, which stands for a linear candidate: its slope is the
derivative of the candidate. -/
theorem variableOfLinearUsing?_keeps (keeps : ∀ e, R.Keeps e (simplify e)) {u inverse d : Expr}
    (words : Polynomial.inWords (symbolicCoefficients simplify) x candidate = true)
    (hc : R.Defined candidate) (hu : R.Keeps candidate u)
    (raw : candidate.rawDerivative x = .ok d) (hd : R.Defined d) (nonzero : R.val d ≠ 0)
    (found : variableOfLinearUsing? simplify x candidate u = some inverse) :
    R.Keeps (.ident x) inverse := by
  unfold variableOfLinearUsing? at found
  dsimp only at found
  split at found
  · rename_i p read
    split at found
    · rename_i linear
      cases found
      have law := symbolicCoefficients_reads keeps
      obtain ⟨valid, polynomial⟩ := Polynomial.ofExpr?_represents law hc read words
      rw [Polynomial.image_linear law.ring valid linear] at polynomial
      have value := polynomial.eval
      have slope := polynomial.slope raw hd
      simp only [Polynomial.eval_add, Polynomial.eval_mul, Polynomial.eval_C, Polynomial.eval_X,
        Polynomial.derivative_add, Polynomial.derivative_mul, Polynomial.derivative_C,
        Polynomial.derivative_X, zero_mul, zero_add, mul_one, add_zero] at value slope
      rw [slope] at nonzero
      obtain ⟨defined, same⟩ := hu hc
      have coefficient := Polynomial.coeff_mem law.ring valid
      refine fun _ => ⟨?_, ?_⟩
      · rw [defined_div, defined_sub]
        exact ⟨⟨defined, coefficient 0⟩, coefficient 1, nonzero⟩
      · rw [val_div, val_sub, same, ← value, add_sub_cancel_right, mul_div_cancel_left₀ _ nonzero,
          val_ident]
    · cases found
  · cases found

theorem inNewSymbolUsing?_keeps (keeps : ∀ e, R.Keeps e (simplify e)) {u result d g : Expr}
    (words : Polynomial.inWords (symbolicCoefficients simplify) x candidate = true)
    (hc : R.Defined candidate) (hu : R.Keeps candidate u)
    (raw : candidate.rawDerivative x = .ok d) (hd : R.Defined d) (nonzero : R.val d ≠ 0)
    (found : inNewSymbolUsing? simplify x candidate u result = some g) : R.Keeps result g := by
  obtain ⟨found, -⟩ := Option.filter_eq_some_iff.mp found
  split at found
  · obtain ⟨inverse, linear, rfl⟩ := Option.map_eq_some_iff.mp found
    have same := variableOfLinearUsing?_keeps keeps words hc hu raw hd nonzero linear
    exact (replace_keeps same result).trans (keeps _)
  · cases found
    exact keeps result

theorem substitutionUsing?_value (keeps : ∀ e, R.Keeps e (simplify e)) {s : Substitution} {d : Expr}
    (words : Polynomial.inWords (symbolicCoefficients simplify) x candidate = true)
    (found : substitutionUsing? simplify x candidate e = some s)
    (raw : candidate.rawDerivative x = .ok d) (he : R.Defined e) (hc : R.Defined candidate)
    (hu : R.ident s.symbol = R.val candidate) (hd : R.Defined d) (nonzero : R.val d ≠ 0) :
    (R.Defined s.scale ∧ R.Defined s.integrand) ∧
      R.val s.scale * R.val s.integrand * R.val d = R.val e := by
  obtain ⟨d', g, raw', -, made, scale, integrand⟩ := exists_of_substitutionUsing? found
  obtain rfl : d = d' := by simpa [raw] using raw'
  have stands : R.Keeps candidate (.ident s.symbol) := fun _ => ⟨trivial, hu⟩
  have kept : R.Keeps (.div e (simplify d)) g := by
    -- The candidate is replaced before the division, or after it.
    rcases made with replacedFirst | dividedFirst
    · have replaced := div_keeps (replace_keeps stands e) (Keeps.refl (simplify d))
      exact replaced.trans <| (keeps _).trans <|
        inNewSymbolUsing?_keeps keeps words hc stands raw hd nonzero replacedFirst
    · exact (keeps _).trans <| (replace_keeps stands _).trans <|
        inNewSymbolUsing?_keeps keeps words hc stands raw hd nonzero dividedFirst
  obtain ⟨defined, slope⟩ := keeps d hd
  rw [← slope] at nonzero ⊢
  have quotient : R.Defined (.div e (simplify d)) := (defined_div _ _).mpr ⟨he, defined, nonzero⟩
  obtain ⟨hg, value⟩ := kept quotient
  obtain ⟨r, coefficient, rest, multiple⟩ := asMultiple_spec hg
  obtain ⟨⟨hf, hb⟩, product⟩ := freeAndBound_spec (x := s.symbol) rest
  obtain ⟨hs, scaled⟩ := scale_spec r hf
  rw [scale, integrand, coefficient]
  refine ⟨⟨hs, hb⟩, ?_⟩
  rw [scaled, mul_assoc (r : K), product, multiple, value, val_div, div_mul_cancel₀ _ nonzero]

end Reading

/-! ## Substitutions as they are made -/

/-- The new symbol occurs in neither the expression nor the scale, and the old one in neither scale
nor integrand. Unless the new symbol occurs in the candidate, it may stand for the candidate: then
scale and integrand times the derivative of the candidate are the expression, wherever all of them
have a value and the derivative is not zero. -/
theorem substitution?_faithful {x : String} {candidate e : Expr} {s : Substitution}
    (found : substitution? x candidate e = some s) :
    (e.mentions s.symbol = false ∧ s.scale.mentions x = false ∧ s.integrand.mentions x = false ∧
      s.scale.mentions s.symbol = false) ∧
    ∃ d, candidate.rawDerivative x = .ok d ∧
      (candidate.mentions s.symbol = false → SubstitutesOnce x candidate e →
        ∀ {K : Type*} [Field K] [CharZero K] {R : Reading K}, R.Lawful → R.Defined e →
          R.Defined candidate → R.Defined d → R.val d ≠ 0 →
          let R' := R.assign s.symbol (R.val candidate)
          (R'.Defined s.scale ∧ R'.Defined s.integrand) ∧
            R'.val s.scale * R'.val s.integrand * R.val d = R.val e) := by
  have names := names_of_substitutionUsing? (substitution?_eq ▸ found)
  obtain ⟨d, -, raw, symbol, -⟩ := exists_of_substitutionUsing? (substitution?_eq ▸ found)
  refine ⟨names, d, raw, fun fresh once K _ _ R laws he hc hd nonzero => ?_⟩
  intro R'
  have other : "e" ≠ s.symbol := by
    obtain ⟨-, n, same⟩ := freshName_spec e.identifiers
    rw [symbol, same]
    exact substitutionName_ne_e n
  have free : d.mentions s.symbol = false :=
    Expr.namesIn_others.mp
      ((derivativeRules_namesIn _ x).rawDerivative raw (Expr.namesIn_others.mpr fresh))
  obtain ⟨definedE, valE⟩ := Reading.assign_free (R := R) names.1 (R.val candidate)
  obtain ⟨definedC, valC⟩ := Reading.assign_free (R := R) fresh (R.val candidate)
  obtain ⟨definedD, valD⟩ := Reading.assign_free (R := R) free (R.val candidate)
  have stands : R'.ident s.symbol = R'.val candidate :=
    (Reading.assign_ident_self ..).trans valC.symm
  obtain ⟨once, words⟩ := once
  rw [found] at once
  rw [← valD, ← valE]
  exact Reading.substitutionUsing?_value (Reading.soundForm_keeps (laws.assign other _)) words
    once.symm raw (definedE.mpr he) (definedC.mpr hc) stands (definedD.mpr hd) (valD ▸ nonzero)

deriving instance DecidableEq for Substitution

theorem soundForm_eq : soundForm = fun e =>
    if FactorsOnce {} e then (normalizeByInsertion closedByInsertion {} e).expr else e := by
  funext e
  rw [soundForm, normalForm_eq]

/-- With `u` for `2 * x + 1`, the integrand `x` is `1 / 4 * (u - 1)` times the derivative 2. -/
theorem substitution?_faithful_of_linear :
    let candidate : Expr := .add (.mul (.ofInt 2) (.ident "x")) .one
    let s : Substitution :=
      ⟨candidate, "u", .div .one (.ofInt 4), .sub (.ident "u") .one⟩
    let R : Reading ℚ := .ofAssignment fun _ => 3
    substitution? "x" candidate (.ident "x") = some s ∧ candidate.mentions s.symbol = false ∧
      SubstitutesOnce "x" candidate (.ident "x") ∧ R.Lawful ∧
      ∃ d, candidate.rawDerivative "x" = .ok d ∧ R.Defined d ∧ R.val d = 2 ∧
        let R' := R.assign s.symbol (R.val candidate)
        (R'.Defined s.scale ∧ R'.Defined s.integrand) ∧
          R'.val s.scale * R'.val s.integrand * R.val d = R.val (.ident "x") := by
  intro candidate s R
  have found : substitution? "x" candidate (.ident "x") = some s := by
    rw [substitution?_eq, normalForm_eq]
    decide +kernel
  have sound : substitutionUsing? soundForm "x" candidate (.ident "x") = some s := by
    rw [soundForm_eq]
    decide +kernel
  have words : Polynomial.inWords (symbolicCoefficients soundForm) "x" candidate = true := by
    rw [soundForm_eq]
    decide +kernel
  have once : SubstitutesOnce "x" candidate (.ident "x") := ⟨found.trans sound.symm, words⟩
  have fresh : candidate.mentions s.symbol = false := by decide
  have laws : R.Lawful := Reading.ofAssignment_lawful _
  let slope : Expr :=
    .sum [.sum [.product [.zero, .ident "x"], .product [.ofInt 2, .one]], .zero]
  have raw : candidate.rawDerivative "x" = .ok slope := rfl
  have defined : R.Defined slope := by simp [slope]
  have value : R.val slope = 2 := by simp [slope]
  have nonzero : R.val slope ≠ 0 := by
    rw [value]
    exact two_ne_zero
  have definedCandidate : R.Defined candidate := by simp [candidate]
  obtain ⟨-, d, raw', faithful⟩ := substitution?_faithful found
  obtain rfl : slope = d := Except.ok.inj (raw.symm.trans raw')
  exact ⟨found, fresh, once, laws, slope, raw, defined, value,
    faithful fresh once laws trivial definedCandidate defined nonzero⟩

/-- With `u` for `x + u`, the integrand `x` becomes 0: the new symbol is looked for in the integrand
alone, and `u - u` is left for `x`. -/
theorem substitution?_of_symbol_in_candidate :
    let candidate : Expr := .add (.ident "x") (.ident "u")
    let s : Substitution := ⟨candidate, "u", .zero, .one⟩
    let R : Reading ℚ := .ofAssignment fun _ => 1
    substitution? "x" candidate (.ident "x") = some s ∧ candidate.mentions s.symbol = true ∧
      ∃ d, candidate.rawDerivative "x" = .ok d ∧ R.Defined d ∧
        let R' := R.assign s.symbol (R.val candidate)
        (R'.Defined s.scale ∧ R'.Defined s.integrand) ∧
          R'.val s.scale * R'.val s.integrand * R.val d ≠ R.val (.ident "x") := by
  intro candidate s R
  have found : substitution? "x" candidate (.ident "x") = some s := by
    rw [substitution?_eq, normalForm_eq]
    decide +kernel
  have defined : R.Defined (.sum [.one, .zero]) := by simp
  refine ⟨found, by decide, .sum [.one, .zero], rfl, defined, ⟨rfl, rfl⟩, ?_⟩
  simp [s, R, Reading.ofAssignment]

end SymbolicAlgebra
