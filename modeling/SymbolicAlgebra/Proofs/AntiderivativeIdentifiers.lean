import SymbolicAlgebra.Calculus.Antiderivative
import SymbolicAlgebra.Proofs.DerivativeIdentifiers

/-! Which identifiers an antiderivative holds: those of the integrand and the one it is taken in. The
symbols of substitutions do not get out, however deep the strategies nest. -/
namespace SymbolicAlgebra

open SymbolicAlgebra.Expr

variable {S : Set String} {x : String} {e f : Expr}

/-! ## The table -/

theorem namesIn_integralOfVariablePower {exponent : Expr} (h : e.NamesIn S)
    (he : exponent.NamesIn S) : (integralOfVariablePower e exponent).NamesIn S := by
  have raised : (normalForm (Expr.sum [exponent, one])).NamesIn S :=
    namesIn_normalForm (by simpa using he)
  unfold integralOfVariablePower
  split <;> simp [logOfAbs, h, raised]

theorem namesIn_integralOfSquare? {g : NamedFunction} (h : e.NamesIn S)
    (found : integralOfSquare? e g = some f) : f.NamesIn S := by
  unfold integralOfSquare? at found
  split at found <;> cases found <;> simp [NamesIn.negate, h]

theorem namesIn_integralOfPower? {base exponent : Expr} (hx : x ∈ S) (hb : base.NamesIn S)
    (he : exponent.NamesIn S) (found : integralOfPower? x base exponent = some f) :
    f.NamesIn S := by
  have symbol : (ident x).NamesIn S := namesIn_ident.mpr hx
  unfold integralOfPower? at found
  dsimp only at found
  split at found
  · cases found
    exact namesIn_integralOfVariablePower symbol he
  · split at found
    · cases found
      split <;> simp [hb, he]
    · split at found
      · split at found
        · split at found
          · exact namesIn_integralOfSquare? symbol found
          · cases found
        · cases found
      · cases found

theorem namesIn_integralOfRootReciprocal? {radicand : Expr} (h : e.NamesIn S)
    (found : integralOfRootReciprocal? e radicand = some f) : f.NamesIn S := by
  unfold integralOfRootReciprocal? at found
  repeat' split at found
  all_goals cases found
  all_goals exact namesIn_apply.mpr h

theorem namesIn_integralOfReciprocal? {d : Expr} (h : e.NamesIn S)
    (found : integralOfReciprocal? e d = some f) : f.NamesIn S := by
  unfold integralOfReciprocal? at found
  extract_lets negatedPower at found
  have power : negatedPower = some f → f.NamesIn S := by
    intro tabled
    dsimp only [negatedPower] at tabled
    split at tabled
    · split at tabled
      · cases tabled
        exact namesIn_integralOfVariablePower h (namesIn_number _)
      · cases tabled
    · cases tabled
  clear_value negatedPower
  split at found
  · cases found
    simp [logOfAbs, h]
  · split at found
    · exact power found
    · split at found
      · cases found
        exact namesIn_apply.mpr h
      · split at found
        · cases found
          exact namesIn_apply.mpr h
        · obtain ⟨radicand, -, root⟩ := Option.bind_eq_some_iff.mp found
          exact namesIn_integralOfRootReciprocal? h root

theorem namesIn_integralOfCall? {g : NamedFunction} (h : e.NamesIn S)
    (found : integralOfCall? e g = some f) : f.NamesIn S := by
  unfold integralOfCall? at found
  dsimp only at found
  split at found <;> cases found <;>
    simp [logOfAbs, half, squared, squareRoot, NamesIn.negate, h]

theorem namesIn_integralOfPair? {g k : NamedFunction} (h : e.NamesIn S)
    (found : integralOfPair? e g k = some f) : f.NamesIn S := by
  unfold integralOfPair? at found
  split at found <;> cases found <;> simp [half, squared, NamesIn.negate, h]

theorem namesIn_tabledIntegral? (hx : x ∈ S) (h : e.NamesIn S)
    (found : e.tabledIntegral? x = some f) : f.NamesIn S := by
  have symbol : (ident x).NamesIn S := namesIn_ident.mpr hx
  unfold tabledIntegral? at found
  dsimp only at found
  split at found
  case h_1 =>
    split at found
    · cases found
      simp [half, squared, hx]
    · cases found
  case h_2 =>
    split at found
    · exact namesIn_integralOfCall? symbol found
    · cases found
  case h_3 base exponent =>
    exact namesIn_integralOfPower? hx (namesIn_node.mp h base (by simp))
      (namesIn_node.mp h exponent (by simp)) found
  case h_4 n d =>
    split at found
    · cases found
    · obtain ⟨reciprocal, tabled, rfl⟩ := Option.map_eq_some_iff.mp found
      have hr := namesIn_integralOfReciprocal? symbol tabled
      have hn := namesIn_node.mp h n (by simp)
      exact hr.ite (namesIn_product.mpr (by simp [hn, hr]))
  case h_5 =>
    split at found
    · rcases (Option.orElse_eq_some ..).mp found with found | ⟨-, found⟩
      · exact namesIn_integralOfPair? symbol found
      · exact namesIn_integralOfPair? symbol found
    · cases found
  case h_6 => cases found

/-! ## The strategies -/

/-- An integral that brings in no identifier but the one it is taken in. -/
def KeepsNames (integral : Integral) : Prop :=
  ∀ ⦃S : Set String⦄ ⦃x : String⦄ ⦃byParts : Bool⦄ ⦃e : Expr⦄ ⦃r : Expr × Strategy⦄,
    x ∈ S → e.NamesIn S → integral x byParts e = some r → r.1.NamesIn S

theorem KeepsNames.expr? {integral : Integral} (keeps : KeepsNames integral) {byParts : Bool}
    (hx : x ∈ S) (h : e.NamesIn S) (found : integral.expr? x byParts e = some f) : f.NamesIn S := by
  obtain ⟨r, whole, rfl⟩ := Option.map_eq_some_iff.mp found
  exact keeps hx h whole

theorem namesIn_raised (h : e.NamesIn S) (n : Int) : (e.raised n).NamesIn S := by
  unfold raised
  split
  · exact namesIn_one
  · exact h.ite (namesIn_pow.mpr ⟨h, namesIn_ofInt _⟩)

theorem namesIn_reductionOf? {n : Int} {g : NamedFunction} {r : Reduction} (hx : x ∈ S)
    (found : reductionOf? x n g = some r) : r.boundary.NamesIn S ∧ r.weight.NamesIn S := by
  have call (g : NamedFunction) : (apply g (ident x)).NamesIn S :=
    namesIn_apply.mpr (namesIn_ident.mpr hx)
  have ratio (p q : Int) : (ofNumeral (.ofQuotient p q)).NamesIn S := namesIn_ofNumeral _
  have mixed (p q k : Int) (other : NamedFunction) :
      ((ofNumeral (.ofQuotient p q)).times
        (product [(apply g (ident x)).raised k, apply other (ident x)])).NamesIn S :=
    (ratio p q).times (by simp [namesIn_raised (call g) k, hx])
  have lone (p : Int) : ((ofNumeral (.ofQuotient p (n - 1))).times
      ((apply g (ident x)).raised (n - 1))).NamesIn S :=
    (ratio p (n - 1)).times (namesIn_raised (call g) (n - 1))
  unfold reductionOf? at found
  dsimp only at found
  split at found <;> cases found
  all_goals constructor
  all_goals first | exact mixed _ _ _ _ | exact lone _ | simp

theorem namesIn_linearSine? {sine : Bool} {arg : Expr} (h : e.NamesIn S)
    (found : linearSine? x e = some (sine, arg)) : arg.NamesIn S := by
  unfold linearSine? at found
  split at found
  · split at found
    · cases found
      exact namesIn_call.mp h arg (by simp)
    · cases found
  · split at found
    · cases found
      exact namesIn_call.mp h arg (by simp)
    · cases found
  · cases found

theorem namesIn_dropSign (h : e.NamesIn S) : (dropSign e).1.NamesIn S := by
  unfold dropSign
  split
  · exact namesIn_normalForm h.negate
  · exact h

theorem namesIn_productToSum {total difference : Expr} {p q flipped : Bool}
    (ht : total.NamesIn S) (hd : difference.NamesIn S) :
    (productToSum p q flipped total difference).NamesIn S := by
  unfold productToSum
  split
  · simp [ht, hd]
  · simp [ht, hd]
  · split <;> simp [ht, hd]

theorem namesIn_sineProduct? {a b : Expr} (ha : a.NamesIn S) (hb : b.NamesIn S)
    (found : sineProduct? x a b = some f) : f.NamesIn S := by
  simp only [sineProduct?, Option.bind_eq_bind, Option.bind_eq_some_iff] at found
  obtain ⟨⟨aSine, u⟩, first, ⟨bSine, v⟩, second, found⟩ := found
  have hu := namesIn_linearSine? ha first
  have hv := namesIn_linearSine? hb second
  dsimp only at found
  generalize pair : (if (!aSine && bSine) = true then (v, u) else (u, v)) = sides at found
  have both : sides.1.NamesIn S ∧ sides.2.NamesIn S := by
    rw [← pair]
    split
    · exact ⟨hv, hu⟩
    · exact ⟨hu, hv⟩
  split at found
  · cases found
  · cases found
    have total := namesIn_normalForm (namesIn_add.mpr both)
    have difference := namesIn_dropSign (namesIn_normalForm (namesIn_sub.mpr both))
    exact namesIn_normalForm (namesIn_div.mpr
      ⟨namesIn_productToSum total difference, namesIn_ofInt 2⟩)

section Strategies

variable {deeper : Integral} (keeps : KeepsNames deeper)
include keeps

theorem namesIn_integrateReduced (hx : x ∈ S) (found : integrateReduced deeper x e = some f) :
    f.NamesIn S := by
  simp only [integrateReduced, Option.bind_eq_bind, Option.bind_eq_some_iff] at found
  obtain ⟨⟨g, n⟩, -, r, formula, found⟩ := found
  obtain ⟨boundary, weight⟩ := namesIn_reductionOf? hx formula
  split at found
  · cases found
    exact boundary
  · obtain ⟨rest, lower, same⟩ := Option.bind_eq_some_iff.mp found
    cases same
    have inner := namesIn_raised (namesIn_apply (f := g).mpr (namesIn_ident.mpr hx)) (n - 2)
    simp [boundary, weight.times (keeps.expr? hx inner lower)]


theorem namesIn_integrateSineProduct (hx : x ∈ S) (h : e.NamesIn S)
    (found : integrateSineProduct deeper x e = some f) : f.NamesIn S := by
  unfold integrateSineProduct at found
  split at found
  case h_1 a b =>
    obtain ⟨g, product, inner⟩ := Option.bind_eq_some_iff.mp found
    have hg := namesIn_sineProduct? (namesIn_node.mp h a (by simp)) (namesIn_node.mp h b (by simp))
      product
    exact keeps.expr? hx hg inner
  case h_2 => cases found

theorem namesIn_remainderIntegral {divisor quotient remainder : Expr} {degree : Int} (hx : x ∈ S)
    (hd : divisor.NamesIn S) (hr : remainder.NamesIn S)
    (found : remainderIntegral deeper x divisor quotient remainder degree = some f) :
    f.NamesIn S := by
  unfold remainderIntegral at found
  split at found
  · obtain ⟨p, read, rfl⟩ := Option.map_eq_some_iff.mp found
    have lead := namesIn_symbolicCoeff normalForm_addsNoNames hd read 1
    simp [logOfAbs, hd, hr, lead]
  · split at found
    · cases found
    · exact keeps.expr? hx (namesIn_div.mpr ⟨hr, hd⟩) found

theorem namesIn_integrateDivided (hx : x ∈ S) (h : e.NamesIn S)
    (found : integrateDivided deeper x e = some f) : f.NamesIn S := by
  unfold integrateDivided at found
  split at found
  case h_1 n d =>
    have hn := namesIn_node.mp h n (by simp)
    have hd := namesIn_node.mp h d (by simp)
    simp only [Option.bind_eq_bind, Option.bind_eq_some_iff] at found
    obtain ⟨degree, -, found⟩ := found
    split at found
    case isTrue => cases found
    simp only [Option.bind_eq_some_iff] at found
    obtain ⟨-, -, ⟨quotient, remainder⟩, divided, found⟩ := found
    obtain ⟨hq, hr⟩ := namesIn_polynomialQuotient? normalForm_addsNoNames hx hn hd divided
    -- What the remainder adds, after any integral of the quotient.
    have proper {whole : List Expr} (hw : ∀ y ∈ whole, y.NamesIn S)
        (found : (if remainder.isZero then some (Expr.sum (whole ++ []))
          else (remainderIntegral deeper x d quotient remainder degree).bind fun p =>
            some (Expr.sum (whole ++ [p]))) = some f) : f.NamesIn S := by
      split at found
      · cases found
        exact namesIn_sum.mpr (namesIn_append hw (by simp))
      · obtain ⟨p, integral, same⟩ := Option.bind_eq_some_iff.mp found
        cases same
        have hp := namesIn_remainderIntegral keeps hx hd hr integral
        exact namesIn_sum.mpr (namesIn_append hw (List.forall_mem_singleton.mpr hp))
    split at found
    · exact proper (by simp) found
    · obtain ⟨g, integral, found⟩ := Option.bind_eq_some_iff.mp found
      have hg := keeps.expr? hx hq integral
      exact proper (List.forall_mem_singleton.mpr hg) found
  case h_2 => cases found

theorem namesIn_integrateSubstituted {limit : Nat} (h : e.NamesIn S)
    (found : integrateSubstituted deeper x limit e = some f) : f.NamesIn S := by
  obtain ⟨candidate, member, found⟩ := List.exists_of_findSome?_eq_some found
  obtain ⟨hc, -⟩ := namesIn_candidates h candidate member
  obtain ⟨s, substituted, found⟩ := Option.bind_eq_some_iff.mp found
  obtain ⟨g, inner, rfl⟩ := Option.map_eq_some_iff.mp found
  obtain ⟨scale, integrand⟩ := namesIn_substitution? hc h substituted
  have hg := keeps.expr? (Set.mem_insert s.symbol S) integrand inner
  exact scale.times (hg.replaceIdent hc)

theorem namesIn_integrateExpanded {byParts : Bool} (hx : x ∈ S) (h : e.NamesIn S)
    (found : integrateExpanded deeper x byParts e = some f) : f.NamesIn S := by
  unfold integrateExpanded at found
  dsimp only at found
  split at found
  · split at found
    · exact keeps.expr? hx (namesIn_normalForm (namesIn_distributeFully h)) found
    · cases found
  · cases found

end Strategies

theorem namesIn_ratioTo? {residual integrand ratio : Expr} (hr : residual.NamesIn S)
    (hi : integrand.NamesIn S) (found : ratioTo? x residual integrand = some ratio) :
    ratio.NamesIn S := by
  unfold ratioTo? at found
  dsimp only at found
  split at found
  · cases found
    exact namesIn_ofNumeral _
  · split at found
    · cases found
      exact namesIn_normalForm (namesIn_div.mpr ⟨hr, hi⟩)
    · cases found

theorem eq_ok_of_toOption {ε α : Type} {result : Except ε α} {a : α}
    (h : result.toOption = some a) : result = .ok a := by
  cases result with
  | error reason => cases h
  | ok b =>
    cases h
    rfl

section Parts

variable {integral : Nat → Integral} (keeps : ∀ n, KeepsNames (integral n))
include keeps

/-- Each time parts are taken, what is known of the equation stays over the same names. -/
theorem namesIn_partsEquation {integrand : Expr} {budget : Nat} {equation : PartsEquation}
    (hx : x ∈ S) (hi : integrand.NamesIn S) (h : e.NamesIn S)
    (found : partsEquation integral x integrand budget e = some equation) :
    equation.known.NamesIn S ∧ equation.multiple.NamesIn S := by
  induction budget generalizing e equation with
  | zero => cases found
  | succ budget ih =>
    simp only [partsEquation, Option.bind_eq_bind, Option.bind_eq_some_iff] at found
    obtain ⟨parts, taken, v, whole, du, slope, found⟩ := found
    obtain ⟨hu, hdv⟩ := namesIn_partsOf? h taken
    have hv := (keeps budget).expr? hx hdv whole
    have hdu : du.NamesIn S := namesIn_derivative hu (eq_ok_of_toOption slope)
    have boundary : (product [parts.u, v]).NamesIn S := by simp [hu, hv]
    have left : (normalForm (product [v, du])).NamesIn S := namesIn_normalForm (by simp [hv, hdu])
    generalize normalForm (product [v, du]) = residual at found left
    split at found
    case isTrue =>
      cases found
      exact ⟨boundary, namesIn_zero⟩
    split at found
    case h_1 k ratio =>
      cases found
      exact ⟨boundary, (namesIn_ratioTo? left hi ratio).negate⟩
    case h_2 =>
      split at found
      case h_1 rest integrated =>
        cases found
        exact ⟨namesIn_sub.mpr ⟨boundary, (keeps budget).expr? hx left integrated⟩, namesIn_zero⟩
      case h_2 =>
        simp only [Option.bind_eq_some_iff] at found
        obtain ⟨next, again, same⟩ := found
        cases same
        have rest := left.asMultiple
        obtain ⟨known, multiple⟩ := ih (namesIn_bound rest) again
        have free := namesIn_free (rest.mono (Set.subset_insert x S))
        exact ⟨namesIn_sub.mpr ⟨boundary, free.scale.times known⟩,
          free.scale.negate.times multiple⟩

theorem namesIn_integrateByParts {budget : Nat} (hx : x ∈ S) (h : e.NamesIn S)
    (found : integrateByParts integral x budget e = some f) : f.NamesIn S := by
  obtain ⟨equation, parts, found⟩ := Option.bind_eq_some_iff.mp found
  obtain ⟨known, multiple⟩ := namesIn_partsEquation keeps hx h h parts
  dsimp only at found
  split at found
  · cases found
    exact known
  · split at found
    · cases found
    · cases found
      exact namesIn_div.mpr ⟨known,
        namesIn_normalForm (namesIn_sub.mpr ⟨namesIn_one, namesIn_normalForm multiple⟩)⟩

theorem namesIn_integrateFactored {limit budget : Nat} {byParts : Bool} (hx : x ∈ S)
    (h : e.NamesIn S) (found : integrateFactored integral x limit byParts budget e = some f) :
    f.NamesIn S := by
  have factored := namesIn_factorShared (namesIn_toSums h)
  unfold integrateFactored at found
  split at found
  · dsimp only at found
    split at found
    · cases found
    · rcases (Option.orElse_eq_some ..).mp found with found | ⟨-, found⟩
      · exact namesIn_integrateSubstituted (keeps _) factored found
      · split at found
        · exact namesIn_integrateByParts keeps hx factored found
        · cases found
  · cases found

theorem namesIn_integrateWhole {options : IntegrationOptions} {budget : Nat} {byParts : Bool}
    {r : Expr × Strategy} (hx : x ∈ S) (h : e.NamesIn S)
    (found : integrateWhole options integral budget x byParts e = some r) : r.1.NamesIn S := by
  have named {strategy : Strategy} {o : Option Expr} (each : ∀ f, o = some f → f.NamesIn S)
      (found : o.map (fun f => (f, strategy)) = some r) : r.1.NamesIn S := by
    obtain ⟨f, method, rfl⟩ := Option.map_eq_some_iff.mp found
    exact each f method
  have deeper := keeps budget
  simp only [integrateWhole, Option.orElse_eq_some] at found
  rcases found with table | ⟨-, reduction | ⟨-, rational | ⟨-, substitution | ⟨-, expansion |
    ⟨-, factoring | ⟨-, parts⟩⟩⟩⟩⟩⟩
  · exact named (fun f => namesIn_tabledIntegral? hx h) table
  · refine named (fun f found => ?_) reduction
    rcases (Option.orElse_eq_some ..).mp found with lowered | ⟨-, sines⟩
    · exact namesIn_integrateReduced deeper hx lowered
    · exact namesIn_integrateSineProduct deeper hx h sines
  · exact named (fun f => namesIn_integrateDivided deeper hx h) rational
  · exact named (fun f => namesIn_integrateSubstituted deeper h) substitution
  · exact named (fun f => namesIn_integrateExpanded deeper hx h) expansion
  · exact named (fun f => namesIn_integrateFactored keeps hx h) factoring
  · split at parts
    · exact named (fun f => namesIn_integrateByParts keeps hx h) parts
    · cases parts

end Parts

/-! ## Sums and free factors -/

section Terms

variable {whole : Expr → Option (Expr × Strategy)}

theorem namesIn_integrateTerms {terms fs : List Expr}
    (each : ∀ t ∈ terms, ∀ r, integrateTerm whole x t = some r → r.1.NamesIn S)
    (found : integrateTerms whole x terms = some fs) : ∀ f ∈ fs, f.NamesIn S := by
  induction terms generalizing fs with
  | nil =>
    rw [integrateTerms] at found
    cases found
    simp
  | cons t ts ih =>
    obtain ⟨here, there⟩ := List.forall_mem_cons.mp each
    rw [integrateTerms] at found
    split at found
    · rename_i r first
      obtain ⟨gs, rest, rfl⟩ := Option.map_eq_some_iff.mp found
      exact List.forall_mem_cons.mpr ⟨here r first, ih there rest⟩
    · cases found

theorem size_le_sizeAll {xs : List Expr} {y : Expr} (member : y ∈ xs) : y.size ≤ sizeAll xs := by
  induction xs with
  | nil => cases member
  | cons z zs ih =>
    rw [sizeAll]
    rcases List.mem_cons.mp member with rfl | later
    · omega
    · have := ih later
      omega

/-- What is integrated gets smaller at each step, though it need not be a part of the term: the
factors that depend on the symbol form a new product. -/
theorem namesIn_integrateTerm (hx : x ∈ S)
    (keeps : ∀ ⦃e : Expr⦄ ⦃r : Expr × Strategy⦄, e.NamesIn S → whole e = some r → r.1.NamesIn S)
    {r : Expr × Strategy} (h : e.NamesIn S) (found : integrateTerm whole x e = some r) :
    r.1.NamesIn S := by
  have symbol : (ident x).NamesIn S := namesIn_ident.mpr hx
  induction size : e.size using Nat.strongRecOn generalizing e r with
  | ind n ih =>
    have smaller {t : Expr} {r : Expr × Strategy} (less : t.size < e.size) (ht : t.NamesIn S)
        (found : integrateTerm whole x t = some r) : r.1.NamesIn S :=
      ih t.size (by omega) ht found rfl
    unfold integrateTerm at found
    split at found
    case h_1 terms =>
      split at found
      · cases found
        exact h.times symbol
      · split at found
        · rename_i fs integrals
          cases found
          refine namesIn_sum.mpr (namesIn_integrateTerms (fun t member r => ?_) integrals)
          have := size_le_sizeAll member
          exact smaller (by rw [Expr.size]; omega) (namesIn_node.mp h t member)
        · exact keeps h found
    case h_2 a b =>
      obtain ⟨ha, hb⟩ := namesIn_sub.mp h
      split at found
      · cases found
        exact h.times symbol
      · split at found
        · rename_i f first
          split at found
          · rename_i g second
            cases found
            simp only [Expr.size, sizeAll] at smaller
            exact namesIn_sub.mpr ⟨smaller (by omega) ha first, smaller (by omega) hb second⟩
          · exact keeps h found
        · exact keeps h found
    case h_3 factors =>
      have parts := namesIn_node.mp h
      split at found
      · cases found
        exact h.times symbol
      · dsimp only at found
        split at found
        · exact keeps h found
        · rename_i some_free
          obtain ⟨f, bound, rfl⟩ := Option.map_eq_some_iff.mp found
          have less := size_product_filter_lt (fun f => f.mentions x) factors some_free
          have free := namesIn_product.mpr
            (namesIn_filter (p := fun f => !f.mentions x) parts)
          exact free.times (smaller less (namesIn_product.mpr (namesIn_filter parts)) bound)
    case h_4 n d =>
      obtain ⟨hn, hd⟩ := namesIn_div.mp h
      split at found
      · cases found
        exact h.times symbol
      · split at found
        · obtain ⟨f, top, rfl⟩ := Option.map_eq_some_iff.mp found
          simp only [Expr.size, sizeAll] at smaller
          exact (namesIn_div.mpr ⟨namesIn_one, hd⟩).times (smaller (by omega) hn top)
        · split at found
          · obtain ⟨f, reciprocal, rfl⟩ := Option.map_eq_some_iff.mp found
            exact hn.times (keeps (namesIn_div.mpr ⟨namesIn_one, hd⟩) reciprocal)
          · exact keeps h found
    case h_5 =>
      split at found
      · cases found
        exact h.times symbol
      · exact keeps h found

end Terms

/-! ## The search -/

theorem integrals_keepsNames (options : IntegrationOptions) (budget n : Nat) :
    KeepsNames (integrals options budget n) := by
  induction budget generalizing n with
  | zero =>
    intro S x byParts e r hx h found
    cases found
  | succ budget ih =>
    intro S x byParts e r hx h found
    rw [integrals] at found
    split at found
    · exact ih n hx h found
    · exact namesIn_integrateTerm hx (fun _ _ => namesIn_integrateWhole ih hx) h found

theorem namesIn_antiderivative? {options : IntegrationOptions} {strategy : Strategy} (hx : x ∈ S)
    (h : e.NamesIn S) (found : antiderivative? options x e = some (f, strategy)) :
    f.NamesIn S := by
  have raw {e : Expr} (h : e.NamesIn S) {r : Expr × Strategy}
      (found : rawAntiderivative? options x e = some r) : r.1.NamesIn S :=
    integrals_keepsNames options _ _ hx h found
  unfold antiderivative? at found
  dsimp only at found
  split at found
  · rename_i g _ integral
    have hg : g.NamesIn S := by
      rcases (Option.orElse_eq_some ..).mp integral with simplified | ⟨-, original⟩
      · exact raw (namesIn_normalForm h) simplified
      · split at original
        · cases original
        · exact raw h original
    split at found
    · cases found
    · cases found
      exact namesIn_normalForm hg
  · cases found

/-- An antiderivative holds the identifiers of the integrand and at most the one it is taken in, a
derivative and a simplified expression only those of what they come from. -/
theorem identifiers_of_results (options : IntegrationOptions) (limits : RoundLimits) (x : String)
    (e : Expr) :
    (∀ f strategy, antiderivative? options x e = some (f, strategy) →
      ∀ name ∈ f.identifiers, name ∈ e.identifiers ∨ name = x) ∧
    (∀ d, derivative x e = .ok d → ∀ name ∈ d.identifiers, name ∈ e.identifiers) ∧
    ∀ name ∈ (normalizeWithin limits e).expr.identifiers, name ∈ e.identifiers := by
  have own : e.NamesIn {name | name ∈ e.identifiers} := fun name occurs => mem_identifiers.mpr occurs
  refine ⟨fun f strategy found name member => ?_, fun d found name member => ?_,
    fun name member => ?_⟩
  · have wider : e.NamesIn (insert x {name | name ∈ e.identifiers}) :=
      own.mono (Set.subset_insert x _)
    have inside := namesIn_antiderivative? (Set.mem_insert x _) wider found
    exact (inside name (mem_identifiers.mp member)).symm
  · exact namesIn_derivative own found name (mem_identifiers.mp member)
  · exact namesIn_normalizeWithin limits own name (mem_identifiers.mp member)

/-- The integral of `cos (u + x)` in `u` goes through a substitution, with `u1` for the sum. -/
theorem identifiers_of_results_for_shifted_cosine :
    let shifted := Expr.add (.ident "u") (.ident "x")
    let e := Expr.apply .cos shifted
    let f := Expr.apply .sin shifted
    let d := (Expr.apply .sin shifted).negate
    antiderivative? {} "u" e = some (f, .substitution) ∧ derivative "u" e = .ok d ∧
      (∀ name ∈ f.identifiers, name ∈ e.identifiers ∨ name = "u") ∧
      ∀ name ∈ d.identifiers, name ∈ e.identifiers := by
  intro shifted e f d
  have integral : antiderivative? {} "u" e = some (f, .substitution) := by decide +kernel
  have slope : derivative "u" e = .ok d := by decide +kernel
  obtain ⟨ofIntegral, ofDerivative, -⟩ := identifiers_of_results {} {} "u" e
  exact ⟨integral, slope, ofIntegral f .substitution integral, ofDerivative d slope⟩

end SymbolicAlgebra
