import SymbolicAlgebra.Proofs.AntiderivativeIdentifiers
import SymbolicAlgebra.Proofs.PartsEquations
import SymbolicAlgebra.Proofs.ReductionFormulas
import SymbolicAlgebra.Proofs.SubstitutionValue
import SymbolicAlgebra.Proofs.SymbolicPolynomials
import SymbolicAlgebra.Proofs.TabledIntegrals

/-! The search for an antiderivative with any tools, and with the trees that the answer rests on. With
the integrator's own tools, and the trees forgotten, it is the integrator. -/
namespace SymbolicAlgebra

/-- What the integrator asks for: a simplifier, a rule that multiplies out, one that pulls the shared
factor out of a sum, and which expressions it may read as polynomials in a symbol. -/
structure IntegrationTools where
  simplify : Expr → Expr
  multiplyOut : Expr → Step
  pullFactor : Expr → Step
  reads : String → Expr → Bool

/-- The normal form, full distribution, and the shared factor of a sum without differences. Every
expression may be read. -/
def integratorOwn : IntegrationTools where
  simplify := normalForm
  multiplyOut := distributeFully
  pullFactor e := factorShared (toSums e).expr
  reads _ _ := true

/-- An antiderivative and the trees besides it that it rests on, in the symbol of the integrand:
antiderivatives on the way to it, derivatives, candidates and reciprocals of what was divided by. -/
structure IntegralRun where
  result : Expr
  trees : List Expr
deriving DecidableEq

def IntegralRun.all (run : IntegralRun) : List Expr := run.result :: run.trees

/-- Finds an antiderivative, as an `Integral` does. -/
abbrev IntegralSearch := String → Bool → Expr → Option (IntegralRun × Strategy)

def IntegralSearch.run? (search : IntegralSearch) (x : String) (byParts : Bool) (e : Expr) :
    Option IntegralRun :=
  (search x byParts e).map Prod.fst

/-- A tree over a new symbol with the candidate put for that. The old symbol is none of the new
integrand's, and zero is put for it. -/
def inOldSymbol (x symbol : String) (candidate e : Expr) : Expr :=
  ((e.replaceIdent x .zero).expr.replaceIdent symbol candidate).expr

namespace IntegrationTools

/-! ## The strategies -/

section Strategies

variable (T : IntegrationTools)

def reducedRun (deeper : IntegralSearch) (x : String) (e : Expr) : Option IntegralRun := do
  let (f, n) ← functionPower? x e
  let r ← reductionOf? x n f
  if r.weight.isZero then some ⟨r.boundary, []⟩
  else
    let rest ← deeper.run? x false ((Expr.apply f (.ident x)).raised (n - 2))
    some ⟨.sum [r.boundary, r.weight.times rest.result], rest.all⟩

def sineProductRun (deeper : IntegralSearch) (x : String) (e : Expr) : Option IntegralRun :=
  (sineSumUsing? T.simplify x e).bind (deeper.run? x false)

def remainderRun (deeper : IntegralSearch) (x : String) (divisor quotient remainder : Expr)
    (degree : Int) : Option IntegralRun :=
  if degree = 1 then
    let R := symbolicCoefficients T.simplify
    (Polynomial.ofExpr? R x divisor).map fun p =>
      ⟨.product [.div remainder (p.coeff R.toCoefficientRing 1), Expr.logOfAbs divisor], []⟩
  else if quotient.isZero then none
  else deeper.run? x true (.div remainder divisor)

/-- Nothing for zero, which has no part in a sum. -/
def unlessZero (e : Expr) (run : Option IntegralRun) : Option (List IntegralRun) :=
  if e.isZero then some [] else run.map fun f => [f]

/-- A quotient of polynomials by long division, by the leading coefficient of the divisor. -/
def dividedRun (deeper : IntegralSearch) (x : String) : Expr → Option IntegralRun
  | .node .divide [n, d] =>
    if T.reads x n && T.reads x d then do
      let degree ← d.degree? [x]
      if degree < 1 then none
      else
        let _ ← n.degree? [x]
        let (quotient, remainder) ← polynomialQuotient? T.simplify n d [x]
        let whole ← unlessZero quotient (deeper.run? x false quotient)
        let proper ← unlessZero remainder (T.remainderRun deeper x d quotient remainder degree)
        some ⟨.sum ((whole ++ proper).map IntegralRun.result),
          DifferentialReading.leadingReciprocal T.simplify x d ::
            (whole ++ proper).flatMap IntegralRun.trees⟩
    else none
  | _ => none

/-- What a substitution for the candidate leads to. The derivative of the candidate is divided by. -/
def substitutedRun? (deeper : IntegralSearch) (x : String) (e candidate : Expr) :
    Option IntegralRun :=
  if T.reads x candidate then
    (substitutionUsing? T.simplify x candidate e).bind fun s =>
      ((deeper.run? s.symbol true s.integrand).filter fun f => !f.result.mentions x).map fun f =>
        ⟨s.scale.times (f.result.replaceIdent s.symbol candidate).expr,
          candidate :: (candidate.rawDerivative x).toOption.toList.map .reciprocal ++
            f.all.map (inOldSymbol x s.symbol candidate)⟩
  else none

def substitutedRun (deeper : IntegralSearch) (x : String) (limit : Nat) (e : Expr) :
    Option IntegralRun :=
  (e.candidates x limit).findSome? (T.substitutedRun? deeper x e)

def expandedRun (deeper : IntegralSearch) (x : String) (byParts : Bool) (e : Expr) :
    Option IntegralRun :=
  let distributed := T.multiplyOut e
  if distributed.changed then
    let expanded := T.simplify distributed.expr
    if expanded.isSum ∧ expanded ≠ e then deeper.run? x byParts expanded else none
  else none

/-- The simplifier alone, for the ratio of a leftover integrand to the integrand. -/
def forRatios : PartsTools where
  simplify := T.simplify
  differentiate _ := none
  integrate _ _ := none

/-- One integration by parts, and the trees that it rests on. -/
def partsStepRun? (search : IntegralSearch) (x : String) (e : Expr) :
    Option (PartsStep × List Expr) := do
  let parts ← partsOf? x e
  let v ← search.run? x false parts.dv
  let slope ← (parts.u.rawDerivative x).toOption
  let boundary := Expr.product [parts.u, v.result]
  let du := T.simplify slope
  some (⟨boundary, T.simplify (.product [v.result, du]), du⟩, boundary :: slope :: v.trees)

/-- The equation of integration by parts. -/
def partsEquationRun (search : Nat → IntegralSearch) (x : String) (integrand : Expr) :
    Nat → Expr → Option PartsRun
  | 0, _ => none
  | budget + 1, e => do
    let (step, trees) ← T.partsStepRun? (search budget) x e
    if step.residual.isZero then some ⟨⟨step.boundary, .zero⟩, trees⟩
    else
      match ratioToUsing? T.forRatios x step.residual integrand with
      | some k => some ⟨⟨step.boundary, k.negate⟩, .reciprocal integrand :: trees⟩
      | none =>
        match (search budget).run? x false step.residual with
        | some rest => some ⟨⟨.sub step.boundary rest.result, .zero⟩, rest.all ++ trees⟩
        | none =>
          let (coefficient, rest) := step.residual.asMultiple
          let (free, inner) := freeAndBound x rest
          let scale := Expr.scale coefficient free
          let next ← partsEquationRun search x integrand budget inner
          some ⟨⟨.sub step.boundary (scale.times next.known), scale.negate.times next.multiple⟩,
            next.trees ++ trees⟩

def byPartsRun (search : Nat → IntegralSearch) (x : String) (budget : Nat) (e : Expr) :
    Option IntegralRun :=
  (T.partsEquationRun search x e budget e).bind fun run =>
    let multiple := T.simplify run.multiple
    if multiple.isZero then some ⟨run.known, run.trees⟩
    else
      let divisor := T.simplify (.sub .one multiple)
      if divisor.isZero || divisor.isNaN then none
      else some ⟨.div run.known divisor, run.trees⟩

def factoredRun (search : Nat → IntegralSearch) (x : String) (limit : Nat) (byParts : Bool)
    (budget : Nat) (e : Expr) : Option IntegralRun :=
  if e.isSum then
    let factored := T.pullFactor e
    if !factored.changed || factored.expr.isNode .add then none
    else
      T.substitutedRun (search (budget - 1)) x limit factored.expr <|>
        if byParts then T.byPartsRun search x budget factored.expr else none
  else none

def wholeRun (options : IntegrationOptions) (search : Nat → IntegralSearch) (budget : Nat)
    (x : String) (byParts : Bool) (e : Expr) : Option (IntegralRun × Strategy) :=
  let deeper := search budget
  let as (strategy : Strategy) (run : Option IntegralRun) : Option (IntegralRun × Strategy) :=
    run.map fun run => (run, strategy)
  as .table ((e.tabledIntegralUsing? T.simplify x).map fun f => ⟨f, []⟩) <|>
    as .reduction (reducedRun deeper x e <|> T.sineProductRun deeper x e) <|>
    as .rationalFunction (T.dividedRun deeper x e) <|>
    as .substitution (T.substitutedRun deeper x options.maxCandidates e) <|>
    as .expansion (T.expandedRun deeper x byParts e) <|>
    as .factoring (T.factoredRun search x options.maxCandidates byParts budget e) <|>
    if byParts then as .byParts (T.byPartsRun search x (budget + 1) e) else none

end Strategies

/-! ## Sums and free factors -/

mutual

def termRun (whole : Expr → Option (IntegralRun × Strategy)) (x : String) :
    Expr → Option (IntegralRun × Strategy)
  | .node .add terms =>
    if !(Expr.node .add terms).mentions x then
      some (⟨(Expr.node .add terms).times (.ident x), []⟩, .table)
    else
      match termsRun whole x terms with
      | some fs =>
        some (⟨.sum (fs.map IntegralRun.result), fs.flatMap IntegralRun.trees⟩, .linearity)
      | none => whole (.node .add terms)
  | .node .subtract [a, b] =>
    if !(Expr.sub a b).mentions x then some (⟨(Expr.sub a b).times (.ident x), []⟩, .table)
    else
      match termRun whole x a with
      | some f =>
        match termRun whole x b with
        | some g => some (⟨.sub f.1.result g.1.result, f.1.trees ++ g.1.trees⟩, .linearity)
        | none => whole (.sub a b)
      | none => whole (.sub a b)
  | .node .multiply factors =>
    if !(Expr.node .multiply factors).mentions x then
      some (⟨(Expr.node .multiply factors).times (.ident x), []⟩, .table)
    else
      let free := Expr.product (factors.filter fun f => !f.mentions x)
      if _h : (Expr.product (factors.filter fun f => !f.mentions x)).isOne then
        whole (.node .multiply factors)
      else
        (termRun whole x (.product (factors.filter fun f => f.mentions x))).map fun f =>
          (⟨free.times f.1.result, f.1.all⟩, .constantMultiple)
  | .node .divide [n, d] =>
    if !(Expr.div n d).mentions x then some (⟨(Expr.div n d).times (.ident x), []⟩, .table)
    else if !d.mentions x then
      (termRun whole x n).map fun f =>
        (⟨(Expr.div .one d).times f.1.result, f.1.all⟩, .constantMultiple)
    else if !n.mentions x && !n.isOne then
      (whole (.div .one d)).map fun f => (⟨n.times f.1.result, f.1.all⟩, .constantMultiple)
    else whole (.div n d)
  | e => if !e.mentions x then some (⟨e.times (.ident x), []⟩, .table) else whole e
termination_by e => 2 * e.size
decreasing_by
  · simp only [Expr.size]
    omega
  · simp only [Expr.size, Expr.sizeAll]
    omega
  · simp only [Expr.size, Expr.sizeAll]
    omega
  · have := Expr.size_product_filter_lt (fun f => f.mentions x) factors _h
    omega
  · simp only [Expr.size, Expr.sizeAll]
    omega

def termsRun (whole : Expr → Option (IntegralRun × Strategy)) (x : String) :
    List Expr → Option (List IntegralRun)
  | [] => some []
  | e :: es =>
    match termRun whole x e with
    | some f => (termsRun whole x es).map fun fs => f.1 :: fs
    | none => none
termination_by es => 2 * Expr.sizeAll es + 1
decreasing_by
  · simp only [Expr.sizeAll]
    omega
  · simp only [Expr.sizeAll]
    have := Expr.size_pos e
    omega

end

/-! ## The search -/

section Search

variable (T : IntegrationTools) (options : IntegrationOptions)

/-- The searches that may go up to `n` levels deep, for `n` up to a budget. -/
def searches : Nat → Nat → IntegralSearch
  | 0, _ => fun _ _ _ => none
  | budget + 1, n =>
    if n ≤ budget then searches budget n
    else fun x byParts => termRun (T.wholeRun options (searches budget) budget x byParts) x

def rawAntiderivativeRun (x : String) (e : Expr) : Option (IntegralRun × Strategy) :=
  T.searches options (options.maxDepth + 1) (options.maxDepth + 1) x true e

/-- An antiderivative of the simplified integrand, or else of the integrand as it is, simplified. -/
def antiderivativeRun (x : String) (e : Expr) : Option (IntegralRun × Strategy) :=
  let integrand := T.simplify e
  let found :=
    T.rawAntiderivativeRun options x integrand <|>
      if integrand = e then none else T.rawAntiderivativeRun options x e
  match found with
  | some (run, strategy) =>
    let result := T.simplify run.result
    if result.isNaN then none else some (⟨result, run.all⟩, strategy)
  | none => none

end Search

/-! ## Without the trees -/

end IntegrationTools

theorem own_simplify : integratorOwn.simplify = normalForm := rfl

theorem own_multiplyOut : integratorOwn.multiplyOut = distributeFully := rfl

theorem own_reads (x : String) (e : Expr) : integratorOwn.reads x e = true := rfl

theorem own_pullFactor : integratorOwn.pullFactor = fun e => factorShared (toSums e).expr := rfl

theorem ratioTo?_eq_own (x : String) : ratioTo? x = ratioToUsing? integratorOwn.forRatios x := rfl

theorem map_orElse {α β : Type} (f : α → β) (a b : Option α) :
    (a <|> b).map f = (a.map f <|> b.map f) := by
  cases a <;> rfl

theorem toOption_map {ε α β : Type} (f : α → β) (result : Except ε α) :
    (result.map f).toOption = result.toOption.map f := by
  cases result <;> rfl

theorem findSome?_congr {α β : Type*} {f g : α → Option β} {as : List α}
    (same : ∀ a ∈ as, f a = g a) : as.findSome? f = as.findSome? g := by
  induction as with
  | nil => rfl
  | cons a as ih =>
    obtain ⟨here, there⟩ := List.forall_mem_cons.mp same
    rw [List.findSome?_cons, List.findSome?_cons, here, ih there]

/-- The run without its trees. -/
def IntegralRun.forget (r : IntegralRun × Strategy) : Expr × Strategy := (r.1.result, r.2)

/-- The search finds what the integral finds. -/
def IntegralSearch.Finds (search : IntegralSearch) (integral : Integral) : Prop :=
  ∀ x byParts e, integral x byParts e = (search x byParts e).map IntegralRun.forget

open IntegrationTools

variable {search : IntegralSearch} {integral : Integral} {x : String} {e : Expr}

theorem IntegralSearch.Finds.run? (finds : search.Finds integral) (x : String) (byParts : Bool)
    (e : Expr) :
    integral.expr? x byParts e = (search.run? x byParts e).map IntegralRun.result := by
  rw [Integral.expr?, IntegralSearch.run?, finds, Option.map_map, Option.map_map]
  rfl

section Strategies

variable (finds : search.Finds integral)
include finds

theorem integrateReduced_eq (x : String) (e : Expr) :
    integrateReduced integral x e = (reducedRun search x e).map IntegralRun.result := by
  simp only [integrateReduced, reducedRun, Option.bind_eq_bind, Option.map_bind, Function.comp_def]
  refine Option.bind_congr fun power _ => Option.bind_congr fun r _ => ?_
  split
  · rfl
  · rw [finds.run?, Option.bind_map, Option.map_bind]
    rfl

theorem integrateSineProduct_eq_run (x : String) (e : Expr) :
    integrateSineProduct integral x e =
      (integratorOwn.sineProductRun search x e).map IntegralRun.result := by
  rw [integrateSineProduct_eq, sineProductRun, Option.map_bind]
  unfold integrateSineProductUsing sineSumUsing?
  split
  · exact Option.bind_congr fun sum _ => finds.run? x false sum
  · rfl

theorem remainderIntegral_eq (x : String) (divisor quotient remainder : Expr) (degree : Int) :
    remainderIntegral integral x divisor quotient remainder degree =
      (integratorOwn.remainderRun search x divisor quotient remainder degree).map
        IntegralRun.result := by
  unfold remainderIntegral remainderRun
  split
  · rw [Option.map_map]
    rfl
  · split
    · rfl
    · exact finds.run? ..

theorem integrateDivided_eq (x : String) (e : Expr) :
    integrateDivided integral x e =
      (integratorOwn.dividedRun search x e).map IntegralRun.result := by
  unfold integrateDivided
  split
  · rw [dividedRun, own_reads, own_reads, Bool.and_self, if_pos rfl]
    simp only [Option.bind_eq_bind, Option.map_bind, Function.comp_def]
    refine Option.bind_congr fun degree _ => ?_
    split
    · rfl
    · simp only [Option.map_bind, Function.comp_def, finds.run?, remainderIntegral_eq finds]
      refine Option.bind_congr fun _ _ => Option.bind_congr fun division _ => ?_
      unfold unlessZero
      split <;> split <;> simp [Option.bind_map]
  · rename_i other
    rw [dividedRun]
    · rfl
    · exact other

/-- The integral over the new symbol does not bring the old one back. -/
theorem integrateSubstituted_eq (keeps : KeepsNames integral) (x : String) (limit : Nat)
    (e : Expr) :
    integrateSubstituted integral x limit e =
      (integratorOwn.substitutedRun search x limit e).map IntegralRun.result := by
  rw [integrateSubstituted, substitutedRun, List.map_findSome?]
  refine findSome?_congr fun candidate member => ?_
  obtain ⟨inside, dependent⟩ := namesIn_candidates (fun _ occurs => occurs) candidate member
  rw [Function.comp, substitutedRun?, own_reads, if_pos rfl, own_simplify, ← substitution?_eq,
    Option.map_bind]
  refine Option.bind_congr fun s substituted => ?_
  rw [substitution?_eq] at substituted
  obtain ⟨absent, -, integrandFree, -⟩ := names_of_substitutionUsing? substituted
  have different : s.symbol ≠ x := by
    intro same
    rw [same, Bool.eq_false_iff] at absent
    exact absent (inside x dependent)
  rw [finds.run?, Option.map_map, Function.comp, Option.map_map]
  cases found : search.run? s.symbol true s.integrand with
  | none => rfl
  | some f =>
    have answer : integral.expr? s.symbol true s.integrand = some f.result := by
      rw [finds.run?, found]
      rfl
    have free : f.result.mentions x = false := Expr.namesIn_others.mp <|
      keeps.expr? different (Expr.namesIn_others.mpr integrandFree) answer
    rw [Option.filter_some, if_pos (by rw [free]; rfl)]
    rfl

theorem integrateExpanded_eq (x : String) (byParts : Bool) (e : Expr) :
    integrateExpanded integral x byParts e =
      (integratorOwn.expandedRun search x byParts e).map IntegralRun.result := by
  rw [integrateExpanded, expandedRun, own_simplify, own_multiplyOut]
  dsimp only
  split
  · split
    · exact finds.run? ..
    · rfl
  · rfl

end Strategies

section Searches

variable {searches : Nat → IntegralSearch} {integrals : Nat → Integral}
  (finds : ∀ n, (searches n).Finds (integrals n))
include finds

theorem partsStep?_eq (x : String) (level : Nat) (e : Expr) :
    partsStep? (integratorTools integrals x) x level e =
      (integratorOwn.partsStepRun? (searches level) x e).map Prod.fst := by
  simp only [partsStep?, partsStepRun?, integratorTools, own_simplify, derivative, toOption_map,
    (finds level).run?, Option.bind_eq_bind, Option.map_bind, Option.bind_map, Function.comp_def,
    Option.map_some]

theorem partsRun_eq (x : String) (integrand : Expr) (budget : Nat) (e : Expr) :
    (partsRun (integratorTools integrals x) x integrand budget e).map PartsRun.toPartsEquation =
      (integratorOwn.partsEquationRun searches x integrand budget e).map
        PartsRun.toPartsEquation := by
  induction budget generalizing e with
  | zero => rfl
  | succ budget ih =>
    rw [partsRun, partsEquationRun]
    simp only [Option.bind_eq_bind, partsStep?_eq finds, Option.bind_map, Option.map_bind,
      Function.comp_def]
    refine Option.bind_congr fun first _ => ?_
    obtain ⟨step, trees⟩ := first
    dsimp only
    rw [← ratioTo?_eq, ratioTo?_eq_own]
    by_cases zero : step.residual.isZero = true
    · rw [if_pos zero, if_pos zero]
      rfl
    · rw [if_neg zero, if_neg zero]
      cases ratioToUsing? integratorOwn.forRatios x step.residual integrand with
      | some k => rfl
      | none =>
        have leftover : (integratorTools integrals x).integrate budget step.residual =
            ((searches budget).run? x false step.residual).map IntegralRun.result :=
          (finds budget).run? ..
        rw [leftover]
        cases (searches budget).run? x false step.residual with
        | some rest => rfl
        | none =>
          let inner := (freeAndBound x step.residual.asMultiple.2).2
          let scale := Expr.scale step.residual.asMultiple.1
            (freeAndBound x step.residual.asMultiple.2).1
          let before (next : PartsEquation) : PartsEquation :=
            ⟨.sub step.boundary (scale.times next.known), scale.negate.times next.multiple⟩
          calc
            _ = ((partsRun (integratorTools integrals x) x integrand budget inner).map
                PartsRun.toPartsEquation).map before := by
              rw [Option.map_map]
              exact Option.map_map ..
            _ = ((integratorOwn.partsEquationRun searches x integrand budget inner).map
                PartsRun.toPartsEquation).map before := by rw [ih]
            _ = _ := by
              dsimp only
              rw [Option.map_map, Option.map_eq_bind, Option.map_bind]
              rfl

theorem integrateByParts_eq_run (x : String) (budget : Nat) (e : Expr) :
    integrateByParts integrals x budget e =
      (integratorOwn.byPartsRun searches x budget e).map IntegralRun.result := by
  rw [integrateByParts, byPartsRun, partsEquation_eq, partsRun_eq finds, Option.bind_map,
    Option.map_bind, own_simplify]
  refine Option.bind_congr fun run _ => ?_
  generalize normalForm = simplify
  simp only [Function.comp_apply]
  split
  · rfl
  · split <;> rfl

theorem integrateFactored_eq (keeps : ∀ n, KeepsNames (integrals n)) (x : String) (limit : Nat)
    (byParts : Bool) (budget : Nat) (e : Expr) :
    integrateFactored integrals x limit byParts budget e =
      (integratorOwn.factoredRun searches x limit byParts budget e).map IntegralRun.result := by
  rw [integrateFactored, factoredRun, own_pullFactor]
  dsimp only
  split
  · split
    · rfl
    · rw [integrateSubstituted_eq (finds _) (keeps _), integrateByParts_eq_run finds, map_orElse]
      split <;> rfl
  · rfl

theorem integrateWhole_eq (keeps : ∀ n, KeepsNames (integrals n)) (options : IntegrationOptions)
    (budget : Nat) (x : String) (byParts : Bool) (e : Expr) :
    integrateWhole options integrals budget x byParts e =
      (integratorOwn.wholeRun options searches budget x byParts e).map IntegralRun.forget := by
  rw [integrateWhole, wholeRun]
  simp only [integrateReduced_eq (finds _), integrateSineProduct_eq_run (finds _),
    integrateDivided_eq (finds _), integrateSubstituted_eq (finds _) (keeps _),
    integrateExpanded_eq (finds _), integrateFactored_eq finds keeps,
    integrateByParts_eq_run finds, own_simplify, ← Expr.tabledIntegral?_eq, map_orElse,
    Option.map_map]
  cases byParts with
  | false => rfl
  | true =>
    rw [if_pos rfl, if_pos rfl, Option.map_map]
    rfl

end Searches

section Terms

variable {whole : Expr → Option (Expr × Strategy)} {run : Expr → Option (IntegralRun × Strategy)}

theorem integrateTerms_eq {terms : List Expr}
    (each : ∀ t ∈ terms, integrateTerm whole x t = (termRun run x t).map IntegralRun.forget) :
    integrateTerms whole x terms = (termsRun run x terms).map (List.map IntegralRun.result) := by
  induction terms with
  | nil => rw [integrateTerms, termsRun]; rfl
  | cons t ts ih =>
    obtain ⟨here, there⟩ := List.forall_mem_cons.mp each
    rw [integrateTerms, termsRun, here, ih there]
    cases termRun run x t with
    | none => rfl
    | some f =>
      rw [Option.map_some]
      dsimp only
      rw [Option.map_map, Option.map_map]
      rfl

theorem integrateTerm_eq (same : ∀ e, whole e = (run e).map IntegralRun.forget) (x : String)
    (e : Expr) : integrateTerm whole x e = (termRun run x e).map IntegralRun.forget := by
  induction size : e.size using Nat.strongRecOn generalizing e with
  | ind n ih =>
    have smaller {t : Expr} (less : t.size < e.size) :
        integrateTerm whole x t = (termRun run x t).map IntegralRun.forget :=
      ih t.size (by omega) t rfl
    unfold integrateTerm
    split
    case h_1 terms =>
      have each (t) (member : t ∈ terms) := smaller (t := t) <| by
        have := size_le_sizeAll member
        rw [Expr.size]
        omega
      rw [termRun, integrateTerms_eq each, same]
      split
      · rfl
      · cases termsRun run x terms <;> rfl
    case h_2 a b =>
      simp only [Expr.size, Expr.sizeAll] at smaller
      rw [termRun, smaller (t := a) (by omega), smaller (t := b) (by omega), same]
      split
      · rfl
      · cases termRun run x a with
        | none => rfl
        | some f => cases termRun run x b <;> rfl
    case h_3 factors =>
      rw [termRun, same]
      split
      · rfl
      · dsimp only
        split
        · rfl
        · rename_i some_free
          rw [smaller (Expr.size_product_filter_lt (fun f => f.mentions x) factors some_free),
            Option.map_map, Option.map_map]
          rfl
    case h_4 n d =>
      simp only [Expr.size, Expr.sizeAll] at smaller
      rw [termRun, smaller (t := n) (by omega), same, same]
      split
      · rfl
      · split
        · rw [Option.map_map, Option.map_map]
          rfl
        · split
          · rw [Option.map_map, Option.map_map]
            rfl
          · rfl
    case h_5 =>
      rw [termRun, same]
      · split <;> rfl
      all_goals assumption

end Terms

/-! ## The whole search -/

theorem searches_finds (options : IntegrationOptions) (budget n : Nat) :
    (integratorOwn.searches options budget n).Finds (integrals options budget n) := by
  induction budget generalizing n with
  | zero => exact fun _ _ _ => rfl
  | succ budget ih =>
    intro x byParts e
    rw [integrals, IntegrationTools.searches]
    split
    · exact ih n x byParts e
    · exact integrateTerm_eq
        (integrateWhole_eq ih (integrals_keepsNames options budget) options budget x byParts) x e

/-- The integrator finds what the search with its own tools does. -/
theorem antiderivative?_eq (options : IntegrationOptions) (x : String) (e : Expr) :
    antiderivative? options x e =
      (integratorOwn.antiderivativeRun options x e).map IntegralRun.forget := by
  have raw (e : Expr) : rawAntiderivative? options x e =
      (integratorOwn.rawAntiderivativeRun options x e).map IntegralRun.forget :=
    searches_finds options _ _ x true e
  have found : (rawAntiderivative? options x (normalForm e) <|>
      if normalForm e = e then none else rawAntiderivative? options x e) =
      (integratorOwn.rawAntiderivativeRun options x (normalForm e) <|>
        if normalForm e = e then none else integratorOwn.rawAntiderivativeRun options x e).map
          IntegralRun.forget := by
    rw [raw, raw, map_orElse]
    split <;> rfl
  rw [antiderivative?, antiderivativeRun, own_simplify]
  dsimp only
  rw [found]
  generalize (integratorOwn.rawAntiderivativeRun options x (normalForm e) <|> _) = answer
  cases answer with
  | none => rfl
  | some r =>
    obtain ⟨run, strategy⟩ := r
    dsimp only [Option.map_some, IntegralRun.forget]
    generalize normalForm run.result = result
    split <;> rfl

end SymbolicAlgebra
