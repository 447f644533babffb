import SymbolicAlgebra.Calculus.Methods

/-! Antiderivatives: the strategies in order, each to a limited depth. -/
namespace SymbolicAlgebra

/-- Limits of the search for an antiderivative. -/
structure IntegrationOptions where
  /-- How deep substitutions, parts and their kin may nest. -/
  maxDepth : Nat := 6
  /-- How many inner expressions are tried in a substitution. -/
  maxCandidates : Nat := 24

/-- An integrand that is no sum and has no free factor. The integral at `n` may go `n` levels deep,
for `n` up to `budget`, which is one level deeper than this one. -/
def integrateWhole (options : IntegrationOptions) (integral : Nat → Integral) (budget : Nat)
    (x : String) (byParts : Bool) (e : Expr) : Option (Expr × Strategy) :=
  let deeper := integral budget
  let as (strategy : Strategy) (f : Option Expr) : Option (Expr × Strategy) :=
    f.map fun e => (e, strategy)
  as .table (e.tabledIntegral? x) <|>
    as .reduction (integrateReduced deeper x e <|> integrateSineProduct deeper x e) <|>
    as .rationalFunction (integrateDivided deeper x e) <|>
    as .substitution (integrateSubstituted deeper x options.maxCandidates e) <|>
    as .expansion (integrateExpanded deeper x byParts e) <|>
    as .factoring (integrateFactored integral x options.maxCandidates byParts budget e) <|>
    if byParts then as .byParts (integrateByParts integral x (budget + 1) e) else none

namespace Expr

/-- Taking out factors that do not amount to one leaves a smaller product. -/
theorem size_product_filter_lt (p : Expr → Bool) (xs : List Expr)
    (h : ¬ (product (xs.filter fun x => !p x)).isOne) :
    (product (xs.filter p)).size < (node .multiply xs).size := by
  have hs := sizeAll_partition p xs
  have hp := size_product_le (xs.filter p)
  cases hf : xs.filter fun x => !p x with
  | nil =>
    rw [hf] at h
    exact absurd rfl h
  | cons y ys =>
    have := size_pos y
    rw [hf] at hs
    simp only [sizeAll] at hs
    simp only [size]
    omega

end Expr

mutual

/-- Integrates sums term by term and pulls free factors out; `whole` integrates what is left. -/
def integrateTerm (whole : Expr → Option (Expr × Strategy)) (x : String) :
    Expr → Option (Expr × Strategy)
  | .node .add terms =>
    if !(Expr.node .add terms).mentions x then
      some ((Expr.node .add terms).times (.ident x), .table)
    else
      match integrateTerms whole x terms with
      | some fs => some (.sum fs, .linearity)
      | none => whole (.node .add terms)
  | .node .subtract [a, b] =>
    if !(Expr.sub a b).mentions x then some ((Expr.sub a b).times (.ident x), .table)
    else
      match integrateTerm whole x a with
      | some f =>
        match integrateTerm whole x b with
        | some g => some (.sub f.1 g.1, .linearity)
        | none => whole (.sub a b)
      | none => whole (.sub a b)
  | .node .multiply factors =>
    if !(Expr.node .multiply factors).mentions x then
      some ((Expr.node .multiply factors).times (.ident x), .table)
    else
      let free := Expr.product (factors.filter fun f => !f.mentions x)
      if _h : (Expr.product (factors.filter fun f => !f.mentions x)).isOne then
        whole (.node .multiply factors)
      else
        (integrateTerm whole x (.product (factors.filter fun f => f.mentions x))).map fun f =>
          (free.times f.1, .constantMultiple)
  | .node .divide [n, d] =>
    if !(Expr.div n d).mentions x then some ((Expr.div n d).times (.ident x), .table)
    else if !d.mentions x then
      (integrateTerm whole x n).map fun f => ((Expr.div .one d).times f.1, .constantMultiple)
    else if !n.mentions x && !n.isOne then
      (whole (.div .one d)).map fun f => (n.times f.1, .constantMultiple)
    else whole (.div n d)
  | e => if !e.mentions x then some (e.times (.ident x), .table) else whole e
termination_by e => 2 * e.size
decreasing_by
  · simp only [Expr.size]
    omega
  · simp only [Expr.size, Expr.sizeAll]
    omega
  · simp only [Expr.size, Expr.sizeAll]
    omega
  · have := Expr.size_product_filter_lt (fun f => f.mentions x) factors _h
    omega
  · simp only [Expr.size, Expr.sizeAll]
    omega

def integrateTerms (whole : Expr → Option (Expr × Strategy)) (x : String) :
    List Expr → Option (List Expr)
  | [] => some []
  | e :: es =>
    match integrateTerm whole x e with
    | some f => (integrateTerms whole x es).map fun fs => f.1 :: fs
    | none => none
termination_by es => 2 * Expr.sizeAll es + 1
decreasing_by
  · simp only [Expr.sizeAll]
    omega
  · simp only [Expr.sizeAll]
    have := Expr.size_pos e
    omega

end

/-- The integrals that may go up to `n` levels deep, for `n` up to a budget; none at level zero. -/
def integrals (options : IntegrationOptions) : Nat → Nat → Integral
  | 0, _ => fun _ _ _ => none
  | budget + 1, n =>
    if n ≤ budget then integrals options budget n
    else fun x byParts =>
      integrateTerm (integrateWhole options (integrals options budget) budget x byParts) x

/-- An antiderivative as the strategies give it, not simplified. -/
def rawAntiderivative? (options : IntegrationOptions) (x : String) (e : Expr) :
    Option (Expr × Strategy) :=
  integrals options (options.maxDepth + 1) (options.maxDepth + 1) x true e

/-- An antiderivative of the simplified integrand, or else of the integrand as it is. -/
def antiderivative? (options : IntegrationOptions) (x : String) (e : Expr) :
    Option (Expr × Strategy) :=
  let integrand := normalForm e
  let found :=
    rawAntiderivative? options x integrand <|>
      if integrand = e then none else rawAntiderivative? options x e
  match found with
  | some (f, strategy) =>
    let result := normalForm f
    if result.isNaN then none else some (result, strategy)
  | none => none

end SymbolicAlgebra
