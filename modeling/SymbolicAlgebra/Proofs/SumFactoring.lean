import SymbolicAlgebra.Factor.Binomial
import SymbolicAlgebra.Factor.RationalRoot
import SymbolicAlgebra.Proofs.CallRules
import SymbolicAlgebra.Proofs.Multiples
import SymbolicAlgebra.Proofs.PolynomialReading
import SymbolicAlgebra.Proofs.SumForm

/-! Factoring a sum keeps its value: the integer content, a difference of squares, a quadratic with
exact roots, and a linear factor for a rational root. Where a sum is read as a polynomial, no exponent
may leave the word. -/
namespace SymbolicAlgebra

namespace Numeral

/-- A greatest common divisor is an exact integer. -/
theorem gcd?_exact {x y g : Numeral} (h : x.gcd? y = some g) : g.isExact = true := by
  unfold gcd? at h
  split at h
  · cases h
    rfl
  · cases h

theorem sqrt?_exact {x y : Numeral} (h : x.sqrt? = some y) :
    ∃ r s, x = .exact r ∧ y = .exact s ∧ s ^ 2 = r ∧ 0 ≤ s := by
  unfold sqrt? root? at h
  split at h
  · rename_i r
    obtain ⟨s, root, rfl⟩ := Option.map_eq_some_iff.mp h
    exact ⟨r, s, rfl, rfl, pow_eq_of_ratRoot? root, nonneg_of_ratRoot? even_two root⟩
  · cases h

theorem eq_of_rational? {x : Numeral} {r : Rat} (h : x.rational? = some r) :
    x = .exact r := by
  cases x with
  | exact s =>
    cases h
    rfl
  | float _ | nan => cases h

/-- A divisor with an exact quotient is not zero. -/
theorem ne_zero_of_div_exact {r s t : Rat}
    (h : (exact r).div (.exact s) = .exact t) : s ≠ 0 ∧ r / s = t := by
  by_cases zero : s = 0
  · simp [div, isZero, zero] at h
  · rw [div_exact zero, exact.injEq] at h
    exact ⟨zero, h⟩

end Numeral

theorem contentFrom?_exact {acc g : Numeral} {cs : List Numeral} (ha : acc.isExact = true)
    (h : contentFrom? acc cs = some g) : g.isExact = true := by
  induction cs generalizing acc with
  | nil =>
    cases h
    exact ha
  | cons c cs ih =>
    rw [contentFrom?] at h
    obtain ⟨d, first, rest⟩ := Option.bind_eq_some_iff.mp h
    exact ih (Numeral.gcd?_exact first) rest

/-- Where the discriminant is zero, the middle coefficient is twice the product of the roots of the
others, up to its sign. -/
theorem middle_of_discriminant_zero {a b c content p q : Rat} (proper : content ≠ 0)
    (zero : b * b - 4 * a * c = 0) (hp : p ^ 2 = a / content) (hq : q ^ 2 = c / content)
    (p_nonneg : 0 ≤ p) (q_nonneg : 0 ≤ q) :
    content * (2 * p * (if b / content < 0 then -q else q)) = b := by
  have square : (b / content) ^ 2 = (2 * p * q) ^ 2 := by
    rw [mul_pow, mul_pow, hp, hq, div_pow]
    field_simp
    linarith
  have product : 0 ≤ 2 * p * q := by positivity
  have ratio : 2 * p * (if b / content < 0 then -q else q) = b / content := by
    rcases sq_eq_sq_iff_eq_or_eq_neg.mp square with same | opposite
    · rw [if_neg (by rw [same]; exact not_lt.mpr product), same]
    · split
      · rw [opposite]
        ring
      · rename_i nonneg
        have : 2 * p * q = 0 := by linarith
        rw [opposite, this, neg_zero]
  rw [ratio, mul_div_cancel₀ b proper]

/-! ## Readings in words -/

/-- No exponent leaves the word while a sum in one identifier is ordered by descending powers. -/
def descendingInWords (simplify : Expr → Expr) (e : Expr) : Bool :=
  match e.identifiers with
  | [name] => Polynomial.inWords (symbolicCoefficients simplify) name e
  | _ => true

/-- No exponent leaves the word while the content is taken out of a sum. -/
def contentInWords (simplify : Expr → Expr) (e : Expr) : Bool :=
  match e.sumForm with
  | .node .add terms => (contentAndRest? terms).all fun s => descendingInWords simplify (.sum s.2)
  | _ => true

/-- No exponent leaves the word while the coefficients in the only unknown are read. -/
def coefficientsInWords (e : Expr) : Bool :=
  match e.unknowns with
  | [unknown] => Polynomial.inWords numeralCoefficients unknown e
  | _ => true

namespace Reading

variable {K : Type*} [Field K] [CharZero K] {R : Reading K}

/-! ## Forms of a sum -/

omit [CharZero K] in
theorem sumForm_keeps (only : R.OnlyArithmetic) (e : Expr) : R.Keeps e e.sumForm :=
  (toSums_keeps e).trans (flatten_keeps only.splices _)

theorem byDescendingPowers_keeps {simplify : Expr → Expr} (keeps : ∀ e, R.Keeps e (simplify e))
    {unknown : String} {e : Expr}
    (words : Polynomial.inWords (symbolicCoefficients simplify) unknown e = true) :
    R.Keeps e (e.byDescendingPowers simplify unknown) := by
  intro h
  unfold Expr.byDescendingPowers
  dsimp only
  split
  · rename_i p read
    split
    · exact ⟨h, rfl⟩
    · have law := symbolicCoefficients_reads keeps
      obtain ⟨valid, value⟩ := Polynomial.ofExpr?_spec law h read words
      obtain ⟨defined, same⟩ := Polynomial.toExpr_spec law unknown valid
      exact ⟨defined, same.trans value⟩
  · exact ⟨h, rfl⟩

theorem descendingForm_keeps {simplify : Expr → Expr} (keeps : ∀ e, R.Keeps e (simplify e))
    {e : Expr} (words : descendingInWords simplify e = true) :
    R.Keeps e (descendingForm simplify e) := by
  unfold descendingForm
  unfold descendingInWords at words
  split
  · rename_i name names
    rw [names] at words
    refine (byDescendingPowers_keeps keeps words).trans ?_
    split
    · rename_i heq
      rw [heq]
      exact fun _ => ⟨defined_zero, by simp⟩
    · rename_i t ts heq
      rw [heq]
      intro h
      obtain ⟨first, rest⟩ := List.forall_mem_cons.mp ((defined_node_add _).mp h)
      obtain ⟨defined, value⟩ := subtractFrom_spec (R := R) [t] (by simpa using first) rest
      exact ⟨defined, by simpa using value⟩
    · exact toDifferences_keeps _
  · exact toDifferences_keeps e

/-! ## Content -/

/-- The terms divided by a divisor other than zero, times the divisor. -/
theorem dividedTerms_spec {g : Rat} (nonzero : g ≠ 0) {terms : List Expr}
    (h : ∀ t ∈ terms, R.Defined t) :
    (∀ t ∈ (terms.map Expr.asMultiple).map fun t => Expr.scale (t.1.div (.exact g)) t.2,
        R.Defined t) ∧
      (g : K) * (((terms.map Expr.asMultiple).map
          fun t => Expr.scale (t.1.div (.exact g)) t.2).map R.val).sum = (terms.map R.val).sum := by
  induction terms with
  | nil => simp
  | cons t terms ih =>
    obtain ⟨first, rest⟩ := List.forall_mem_cons.mp h
    obtain ⟨defined, value⟩ := ih rest
    obtain ⟨c, coefficient, inside, whole⟩ := asMultiple_spec first
    obtain ⟨scaled, scaledValue⟩ := scale_spec (R := R) (c / g) inside
    simp only [List.map_cons, List.forall_mem_cons, List.sum_cons, coefficient,
      Numeral.div_exact nonzero, mul_add, value]
    refine ⟨⟨scaled, defined⟩, ?_⟩
    have cast : (g : K) ≠ 0 := Rat.cast_ne_zero.mpr nonzero
    rw [scaledValue, Rat.cast_div, ← whole]
    field_simp

theorem contentAndRest?_spec {terms rest : List Expr} {content : Numeral}
    (h : ∀ t ∈ terms, R.Defined t) (found : contentAndRest? terms = some (content, rest)) :
    R.Defined (.number content) ∧ (∀ t ∈ rest, R.Defined t) ∧
      R.val (.number content) * (rest.map R.val).sum = (terms.map R.val).sum := by
  unfold contentAndRest? at found
  dsimp only at found
  split at found
  · rename_i g divisor
    split at found
    · cases found
    · rename_i proper
      cases found
      obtain ⟨r, rfl⟩ := Numeral.exists_exact (contentFrom?_exact rfl divisor)
      have nonzero : r ≠ 0 := by
        rintro rfl
        simp [Numeral.isZero] at proper
      obtain ⟨defined, value⟩ := dividedTerms_spec (R := R) nonzero h
      exact ⟨rfl, defined, value⟩
  · cases found

theorem factorContent_keeps (only : R.OnlyArithmetic) {simplify : Expr → Expr}
    (keeps : ∀ e, R.Keeps e (simplify e)) {e : Expr} (words : contentInWords simplify e = true) :
    R.Keeps e (factorContent simplify e).expr := by
  intro h
  obtain ⟨flat, same⟩ := sumForm_keeps only e h
  unfold factorContent
  unfold contentInWords at words
  split
  · rename_i terms heq
    rw [heq] at flat same words
    split
    · rename_i content rest found
      simp only [found, Option.all_some] at words
      obtain ⟨number, defined, value⟩ := contentAndRest?_spec ((defined_node_add _).mp flat) found
      obtain ⟨ordered, orderedValue⟩ := descendingForm_keeps keeps words
        ((defined_sum _).mpr defined)
      refine ⟨?_, ?_⟩
      · exact (defined_product _).mpr
          (List.forall_mem_cons.mpr ⟨number, List.forall_mem_singleton.mpr ordered⟩)
      · rw [← same, val_node_add, ← value]
        simp [Step.new, orderedValue]
    · exact ⟨h, rfl⟩
  · exact ⟨h, rfl⟩

/-! ## Squares -/

theorem ofTerm_spec {e : Expr} (h : R.Defined e) :
    R.TermDefined (.ofTerm e) ∧ R.termVal (.ofTerm e) = R.val e := by
  obtain ⟨r, coefficient, rest, whole⟩ := asMultiple_spec h
  unfold FactoredTerm.ofTerm
  dsimp only
  split
  · rename_i one
    refine ⟨⟨by rw [coefficient]; rfl, powersDefined_nil⟩, ?_⟩
    rw [termVal, coefficient, Numeral.val_exact, powersVal_nil, ← whole, val_of_isOne rest one]
  · obtain ⟨defined, value⟩ := powersOfFactors_spec ((defined_factors e.asMultiple.2).mpr rest)
    refine ⟨⟨by rw [coefficient]; rfl, defined⟩, ?_⟩
    rw [termVal, coefficient, Numeral.val_exact, value, prod_factors, whole]

/-- The root of a power, to the power that it is the root for. -/
theorem powerRoot?_spec {n : Nat} (positive : n ≠ 0) {p : Power} {root : Option Expr}
    (h : R.Defined (.pow p.1 p.2)) (found : powerRoot? n p = some root) :
    (∀ e ∈ root, R.Defined e) ∧ (root.elim 1 R.val) ^ n = R.val (.pow p.1 p.2) := by
  obtain ⟨base, -, m, exponent, -⟩ := (defined_pow _ _).mp h
  unfold powerRoot? at found
  split at found
  · rename_i r rational
    have value : (m : Rat) = r := by
      have := exponent.trans (rational?_spec rational).2
      exact_mod_cast this
    dsimp only at found
    split at found
    · cases found
    · rename_i proper
      rw [not_or, not_not, not_lt] at proper
      obtain ⟨k, reduced⟩ : ∃ k : Nat, r / n = k :=
        ⟨(r / n).num.toNat, by
          rw [← Rat.den_eq_one_iff _ |>.mp proper.1]
          exact_mod_cast (Int.toNat_of_nonneg proper.2).symm⟩
      have product : m = (k * n : Nat) := by
        have : (n : Rat) ≠ 0 := by exact_mod_cast positive
        have whole : (m : Rat) = ((k * n : Nat) : Rat) := by
          rw [value, (div_eq_iff this).mp reduced, Nat.cast_mul]
        exact_mod_cast whole
      have power : R.val (.pow p.1 p.2) = (R.val p.1 ^ k) ^ n := by
        rw [val_pow, ← exponent, product, power_intCast, zpow_natCast, pow_mul]
      rw [reduced] at found
      rw [power]
      split at found
      · rename_i one
        cases found
        have : k = 1 := by exact_mod_cast one
        simp [this, base]
      · split at found
        · rename_i zero
          cases found
          have : k = 0 := by exact_mod_cast zero
          simp [this]
        · cases found
          simp only [Option.mem_def, Option.some.injEq, forall_eq', Option.elim_some, defined_pow,
            val_pow, val_ofRat, Rat.cast_natCast, power_natCast]
          exact ⟨⟨base, defined_ofRat _, k, by simp, fun _ => Int.natCast_nonneg k⟩, trivial⟩
  · cases found

theorem powerRoots_spec {n : Nat} (positive : n ≠ 0) {ps : List Power}
    {roots : List (Option Expr)} (h : R.PowersDefined ps)
    (found : ps.mapM (powerRoot? n) = some roots) :
    (∀ e ∈ roots.filterMap id, R.Defined e) ∧
      ((roots.filterMap id).map R.val).prod ^ n = R.powersVal ps := by
  induction ps generalizing roots with
  | nil =>
    cases found
    simp
  | cons p ps ih =>
    simp only [List.mapM_cons, Option.bind_eq_bind, Option.bind_eq_some_iff, Option.pure_def,
      Option.some.injEq] at found
    obtain ⟨root, first, others, rest, rfl⟩ := found
    obtain ⟨hp, hps⟩ := (powersDefined_cons p ps).mp h
    obtain ⟨here, value⟩ := powerRoot?_spec positive hp first
    obtain ⟨defined, product⟩ := ih hps rest
    rw [powersVal_cons, ← product, ← value]
    cases root with
    | none => simpa using defined
    | some e =>
      refine ⟨List.forall_mem_cons.mpr ⟨here e rfl, defined⟩, ?_⟩
      rw [List.filterMap_cons, id_eq, List.map_cons, List.prod_cons, mul_pow, Option.elim_some]

/-- A term is the power of its root. -/
theorem termRoot?_spec {n : Nat} (positive : n ≠ 0) {term root : Expr} (h : R.Defined term)
    (found : term.termRoot? n = some root) : R.Defined root ∧ R.val root ^ n = R.val term := by
  obtain ⟨⟨exact, powers⟩, value⟩ := ofTerm_spec h
  simp only [Expr.termRoot?, Option.bind_eq_bind, Option.bind_eq_some_iff, Option.some.injEq]
    at found
  obtain ⟨coefficient, outer, roots, inner, rfl⟩ := found
  obtain ⟨c, coefficientEq⟩ := Numeral.exists_exact exact
  rw [coefficientEq, Numeral.root?] at outer
  obtain ⟨d, root, rfl⟩ := Option.map_eq_some_iff.mp outer
  obtain ⟨defined, product⟩ := powerRoots_spec positive powers inner
  obtain ⟨scaled, scaledValue⟩ := scale_spec (R := R) d ((defined_product _).mpr defined)
  refine ⟨scaled, ?_⟩
  rw [scaledValue, val_product, mul_pow, product, ← value, termVal, coefficientEq,
    Numeral.val_exact, ← pow_eq_of_ratRoot? root, Rat.cast_pow]

/-- The difference of two squares is the sum of their roots times the difference. -/
theorem squareDifference_keeps {e positive negative : Expr} (hp : R.Defined positive)
    (hn : R.Defined negative) (sign : negative.isNegative = true)
    (total : R.val positive + R.val negative = R.val e) :
    R.Keeps e (match positive.termRoot? 2, negative.unsigned.termRoot? 2 with
      | some a, some b => Step.new (.product [.sum [a, b], .sub a b])
      | _, _ => .same e).expr := by
  obtain ⟨hu, opposite⟩ := unsigned_spec hn
  rw [if_pos sign] at opposite
  split
  · rename_i a b first second
    obtain ⟨ha, upper⟩ := termRoot?_spec two_ne_zero hp first
    obtain ⟨hb, lower⟩ := termRoot?_spec two_ne_zero hu second
    refine fun _ => ⟨?_, ?_⟩
    · simp [Step.new, ha, hb]
    · simp only [Step.new, val_product, List.map_cons, List.map_nil, List.prod_cons,
        List.prod_nil, val_sum, List.sum_cons, List.sum_nil, val_sub]
      rw [opposite] at lower
      linear_combination upper - lower + total
  · exact Keeps.refl e

theorem factorSquares_keeps (only : R.OnlyArithmetic) (e : Expr) :
    R.Keeps e (factorSquares e).expr := by
  intro h
  obtain ⟨flat, same⟩ := sumForm_keeps only e h
  unfold factorSquares
  split
  · rename_i x y heq
    rw [heq] at flat same
    obtain ⟨hx, hy⟩ : R.Defined x ∧ R.Defined y := by simpa using flat
    have total : R.val x + R.val y = R.val e := by simpa using same
    dsimp only
    split
    · exact squareDifference_keeps hx hy ‹_› total h
    · exact squareDifference_keeps hy hx ‹_› (by rw [add_comm, total]) h
    · exact ⟨h, rfl⟩
  · exact ⟨h, rfl⟩

/-! ## Quadratics -/

theorem linearSum_spec (unknown : String) (p q : Rat) :
    R.Defined (linearSum unknown (.exact p) (.exact q)) ∧
      R.val (linearSum unknown (.exact p) (.exact q)) = p * R.ident unknown + q := by
  obtain ⟨defined, value⟩ := scale_spec (R := R) p (defined_ident unknown)
  have sum : R.Defined (.sum (.scale (.exact p) (.ident unknown) ::
        if (Numeral.exact q).isZero then [] else [.number (.exact q)])) ∧
      R.val (.sum (.scale (.exact p) (.ident unknown) ::
        if (Numeral.exact q).isZero then [] else [.number (.exact q)])) =
        p * R.ident unknown + q := by
    rw [defined_sum, val_sum, List.map_cons, List.sum_cons, value]
    split
    · rename_i zero
      exact ⟨by simpa using defined, by simp [(Numeral.isZero_exact q).mp zero]⟩
    · exact ⟨by simpa using defined, by simp⟩
  obtain ⟨result, same⟩ := toDifferences_keeps _ sum.1
  exact ⟨result, same.trans sum.2⟩

theorem factorOfRoot_spec (unknown : String) (root : Rat) :
    R.Defined (factorOfRoot unknown root) ∧
      R.val (factorOfRoot unknown root) = root.den * R.ident unknown - root.num := by
  obtain ⟨defined, value⟩ := linearSum_spec (R := R) unknown root.den (-root.num : Int)
  refine ⟨defined, value.trans ?_⟩
  push_cast
  ring

theorem unknownAndCoefficients?_spec {integral : Bool} {e : Expr} {unknown : String}
    {cs : List Numeral} (h : R.Defined e)
    (found : unknownAndCoefficients? integral e = some (unknown, cs)) :
    (∀ c ∈ cs, c.isExact = true) ∧ cs.length ≤ wordSize ∧ (coefficientsInWords e = true →
      (Polynomial.descendingImage (Numeral.val K) cs).eval (R.ident unknown) = R.val e) := by
  unfold unknownAndCoefficients? at found
  split at found
  · rename_i name names
    obtain ⟨_, read, same⟩ := Option.map_eq_some_iff.mp found
    cases same
    simp only [Expr.coefficients?, names] at read
    split at read
    · rename_i p polynomial
      split at read
      · cases read
      · cases read
        have law := numeralCoefficients_reads R
        have tree : Polynomial.ReadAs numeralCoefficients unknown False e p :=
          Polynomial.readAs_of_ofExpr? polynomial False.elim
        have valid := tree.valid law h
        obtain ⟨exact, image⟩ := Polynomial.descending_spec law.ring valid
        refine ⟨exact, valid.length_descending_le, fun words => ?_⟩
        rw [coefficientsInWords, names] at words
        rw [image, ← (Polynomial.ofExpr?_spec law h polynomial words).2, Polynomial.valueAt]
    · cases read
  · cases found

theorem quadratic_spec {integral : Bool} {e : Expr} {unknown : String} {a b c : Numeral}
    (h : R.Defined e) (found : unknownAndCoefficients? integral e = some (unknown, [a, b, c]))
    (words : coefficientsInWords e = true) :
    ∃ r s t : Rat, a = .exact r ∧ b = .exact s ∧ c = .exact t ∧
      R.val e = r * R.ident unknown ^ 2 + s * R.ident unknown + t := by
  obtain ⟨exact, -, value⟩ := unknownAndCoefficients?_spec h found
  obtain ⟨r, rfl⟩ := Numeral.exists_exact (exact a (by simp))
  obtain ⟨s, rfl⟩ := Numeral.exists_exact (exact b (by simp))
  obtain ⟨t, rfl⟩ := Numeral.exists_exact (exact c (by simp))
  refine ⟨r, s, t, rfl, rfl, rfl, ?_⟩
  rw [← value words]
  simp [Polynomial.descendingImage]
  ring

/-- The terms of a completed square. -/
theorem multipleOfSquare?_spec {unknown : String} {a b c : Rat} {square : Expr}
    (zero : b * b - 4 * a * c = 0)
    (found : multipleOfSquare? unknown (.exact a) (.exact b) (.exact c) = some square) :
    R.Defined square ∧
      R.val square = a * R.ident unknown ^ 2 + b * R.ident unknown + c := by
  simp only [multipleOfSquare?, Option.bind_eq_bind, Option.bind_eq_some_iff] at found
  obtain ⟨divisor, common, found⟩ := found
  obtain ⟨inner, -, common⟩ := common
  obtain ⟨g, rfl⟩ := Numeral.exists_exact (Numeral.gcd?_exact common)
  obtain ⟨content, signed⟩ : ∃ content : Rat,
      (if (Numeral.exact a).isNegative then (Numeral.exact g).neg else .exact g) =
        .exact content := by
    split
    · exact ⟨-g, rfl⟩
    · exact ⟨g, rfl⟩
  rw [signed] at found
  obtain ⟨p, rootLead, q, rootLast, found⟩ := found
  obtain ⟨lead, p, leadEq, rfl, leadSquare, p_nonneg⟩ := Numeral.sqrt?_exact rootLead
  obtain ⟨last, q, lastEq, rfl, lastSquare, q_nonneg⟩ := Numeral.sqrt?_exact rootLast
  obtain ⟨proper, rfl⟩ := Numeral.ne_zero_of_div_exact leadEq
  obtain ⟨-, rfl⟩ := Numeral.ne_zero_of_div_exact lastEq
  have middle := middle_of_discriminant_zero proper zero leadSquare lastSquare p_nonneg q_nonneg
  have chosen : (if ((Numeral.exact b).div (.exact content)).isNegative then
      (Numeral.exact q).neg else .exact q) =
      .exact (if b / content < 0 then -q else q) := by
    simp only [Numeral.div_exact proper, Numeral.isNegative_exact, Numeral.neg_exact]
    split <;> rfl
  have signedSquare : (if b / content < 0 then -q else q) ^ 2 = c / content := by
    rw [← lastSquare]
    split <;> ring
  rw [chosen] at found
  generalize (if b / content < 0 then -q else q) = root at middle signedSquare found
  have leading : (content * p ^ 2 : K) = a := by
    exact_mod_cast congrArg (Rat.cast (K := K))
      (show content * p ^ 2 = a by rw [leadSquare, mul_div_cancel₀ a proper])
  have constant : (content * root ^ 2 : K) = c := by
    exact_mod_cast congrArg (Rat.cast (K := K))
      (show content * root ^ 2 = c by rw [signedSquare, mul_div_cancel₀ c proper])
  have cross : (content * (2 * p * root) : K) = b := by
    exact_mod_cast congrArg (Rat.cast (K := K)) middle
  have whole : content * (p * R.ident unknown + root : K) ^ 2 =
      a * R.ident unknown ^ 2 + b * R.ident unknown + c := by
    linear_combination R.ident unknown ^ 2 * leading + R.ident unknown * cross + constant
  obtain ⟨linear, linearValue⟩ := linearSum_spec (R := R) unknown p root
  have power : R.Defined (.pow (linearSum unknown (.exact p) (.exact root)) (.ofInt 2)) :=
    (defined_pow _ _).mpr ⟨linear, defined_ofInt _, 2, by simp, fun _ => by norm_num⟩
  have powerValue : R.val (.pow (linearSum unknown (.exact p) (.exact root)) (.ofInt 2)) =
      (p * R.ident unknown + root) ^ 2 := by
    rw [val_pow, linearValue, val_ofInt, power_intCast, zpow_ofNat]
  split at found
  · rename_i one
    cases found
    have unit : content = 1 := by simpa using one
    exact ⟨power, by rw [powerValue, ← whole, unit, Rat.cast_one, one_mul]⟩
  · cases found
    refine ⟨(defined_product _).mpr ?_, ?_⟩
    · exact List.forall_mem_cons.mpr ⟨rfl, List.forall_mem_singleton.mpr power⟩
    · simp [powerValue, whole]

/-- A quadratic is its leading coefficient times the factors of its roots. -/
theorem splitQuadratic_spec (unknown : String) (a r s : Rat) :
    R.Defined (splitQuadratic unknown (.exact a) r s) ∧
      R.val (splitQuadratic unknown (.exact a) r s) =
        a * (R.ident unknown - r) * (R.ident unknown - s) := by
  have rDen : (r.den : Rat) ≠ 0 := Nat.cast_ne_zero.mpr r.den_nz
  have sDen : (s.den : Rat) ≠ 0 := Nat.cast_ne_zero.mpr s.den_nz
  have scale : (Numeral.exact a).div ((Numeral.ofInt r.den).mul (.ofInt s.den)) =
      .exact (a / (r.den * s.den)) := by
    rw [Numeral.ofInt, Numeral.ofInt, Numeral.mul_exact, Int.cast_natCast, Int.cast_natCast,
      Numeral.div_exact (mul_ne_zero rDen sDen)]
  obtain ⟨first, firstValue⟩ := factorOfRoot_spec (R := R) unknown r
  obtain ⟨second, secondValue⟩ := factorOfRoot_spec (R := R) unknown s
  have product : (a / (r.den * s.den) : K) * (r.den * R.ident unknown - r.num) *
      (s.den * R.ident unknown - s.num) =
        a * (R.ident unknown - r) * (R.ident unknown - s) := by
    have rCast : (r.den : K) ≠ 0 := Nat.cast_ne_zero.mpr r.den_nz
    have sCast : (s.den : K) ≠ 0 := Nat.cast_ne_zero.mpr s.den_nz
    rw [Rat.cast_def r, Rat.cast_def s]
    field_simp
  rw [splitQuadratic, scale, defined_product, val_product, List.map_append, List.prod_append]
  simp only [List.map_cons, List.map_nil, List.prod_cons, List.prod_nil, firstValue, secondValue,
    mul_one, List.mem_append, or_imp, forall_and, List.mem_cons, List.not_mem_nil, or_false,
    forall_eq, first, second, and_self, and_true]
  split
  · rename_i one
    have unit : a / (r.den * s.den) = 1 := by simpa using one
    have cast : (a / (r.den * s.den) : K) = 1 := by
      exact_mod_cast congrArg (Rat.cast (K := K)) unit
    refine ⟨List.forall_mem_nil _, ?_⟩
    rw [← product, cast]
    simp
  · refine ⟨by simp, ?_⟩
    rw [← product]
    simp [mul_assoc]

/-- The quadratic formula. -/
theorem quadratic_of_roots {a b c w : Rat} (x : K) (twice : 2 * a ≠ 0)
    (square : w ^ 2 = b * b - 4 * a * c) :
    (a : K) * (x - ((-b + w) / (2 * a) : Rat)) * (x - ((-b - w) / (2 * a) : Rat)) =
      a * x ^ 2 + b * x + c := by
  have nonzero : (2 * a : K) ≠ 0 := by exact_mod_cast (Rat.cast_ne_zero (α := K)).mpr twice
  have leading : (a : K) ≠ 0 := right_ne_zero_of_mul nonzero
  have cast : (w : K) ^ 2 = b * b - 4 * a * c := by
    exact_mod_cast congrArg (Rat.cast (K := K)) square
  push_cast
  field_simp
  linear_combination -cast

theorem factorQuadraticExactly_keeps {e : Expr} (words : coefficientsInWords e = true) :
    R.Keeps e (factorQuadraticExactly e).expr := by
  intro h
  unfold factorQuadraticExactly
  split
  · rename_i unknown a b c found
    obtain ⟨a, b, c, rfl, rfl, rfl, value⟩ := quadratic_spec h found words
    split
    · exact ⟨h, rfl⟩
    dsimp only [Numeral.ofInt, Numeral.mul_exact, Numeral.sub_exact, Numeral.neg_exact]
    split
    · rename_i zero
      have discriminant : b * b - 4 * a * c = 0 := by simpa using zero
      split
      · rename_i square completed
        obtain ⟨defined, same⟩ := multipleOfSquare?_spec (R := R) discriminant completed
        exact ⟨defined, same.trans value.symm⟩
      · exact ⟨h, rfl⟩
    · split
      · exact ⟨h, rfl⟩
      split
      · rename_i root rootFound
        obtain ⟨d, w, same, rfl, square, -⟩ := Numeral.sqrt?_exact rootFound
        cases same
        split
        · rename_i r s upper lower
          obtain ⟨twice, rfl⟩ := Numeral.ne_zero_of_div_exact (Numeral.eq_of_rational? upper)
          obtain ⟨-, rfl⟩ := Numeral.ne_zero_of_div_exact (Numeral.eq_of_rational? lower)
          obtain ⟨defined, product⟩ := splitQuadratic_spec (R := R) unknown a
            ((-b + w) / (2 * a)) ((-b - w) / (2 * a))
          refine ⟨defined, product.trans ?_⟩
          rw [value]
          exact quadratic_of_roots (R.ident unknown) twice square
        · exact ⟨h, rfl⟩
      · exact ⟨h, rfl⟩
  · exact ⟨h, rfl⟩

/-! ## Rational roots -/

/-- The divisor of a rational root, as coefficients. -/
theorem rootDivisor_spec (unknown : String) (root : Rat) {d : Polynomial Numeral}
    (h : d = .ofDescending numeralCoefficients.toCoefficientRing
      [.ofInt root.den, .ofInt (-root.num)]) :
    d.Valid numeralCoefficients.toCoefficientRing (fun x => x.isExact = true) ∧
      (d.leading numeralCoefficients.toCoefficientRing).val K ≠ 0 ∧
      d.valueAt (Numeral.val K) R unknown = R.val (factorOfRoot unknown root) := by
  have exact : ∀ c ∈ [Numeral.ofInt root.den, Numeral.ofInt (-root.num)], c.isExact = true := by
    simp
  have notZero : numeralCoefficients.isZero (.ofInt root.den) = false := by
    simp [numeralCoefficients, Numeral.ofInt, Numeral.isZero]
  obtain ⟨valid, -, image⟩ := Polynomial.ofDescending_spec (numeralCoefficients_ring (K := K)) exact
    Polynomial.one_lt_wordSize
  subst h
  refine ⟨valid, ?_, ?_⟩
  · rw [Polynomial.leading_ofDescending _ notZero]
    simp
  · rw [Polynomial.valueAt, image, (factorOfRoot_spec unknown root).2]
    simp [Polynomial.descendingImage]
    ring

/-- Where the division leaves nothing, the polynomial is the divisor times the quotient. -/
theorem linearFactor_spec {unknown : String} {root : Rat} {cs : List Numeral}
    {quotient remainder : Polynomial Numeral} (exact : ∀ c ∈ cs, c.isExact = true)
    (short : cs.length ≤ wordSize)
    (division : (Polynomial.ofDescending numeralCoefficients.toCoefficientRing cs).divRem?
      numeralCoefficients.toCoefficientRing
      (.ofDescending numeralCoefficients.toCoefficientRing
        [.ofInt root.den, .ofInt (-root.num)]) = some (quotient, remainder))
    (nothing : remainder.isZero = true) :
    R.Defined (.product
        [factorOfRoot unknown root, (quotient.toExpr numeralCoefficients unknown).differenceForm]) ∧
      R.val (.product
        [factorOfRoot unknown root, (quotient.toExpr numeralCoefficients unknown).differenceForm]) =
        (Polynomial.descendingImage (Numeral.val K) cs).eval (R.ident unknown) := by
  obtain ⟨valid, -, image⟩ :=
    Polynomial.ofDescending_spec (numeralCoefficients_ring (K := K)) exact short
  obtain ⟨divisorValid, lead, divisorValue⟩ := rootDivisor_spec (R := R) unknown root rfl
  obtain ⟨quotientValid, -, whole⟩ :=
    Polynomial.divRem?_spec numeralCoefficients_ring valid divisorValid lead division
  have zero : Polynomial.image (Numeral.val K) remainder = 0 := by
    rw [Polynomial.image, List.isEmpty_iff.mp nothing, Polynomial.termsImage_nil]
  obtain ⟨written, writtenValue⟩ :=
    Polynomial.toExpr_spec (numeralCoefficients_reads R) unknown quotientValid
  obtain ⟨difference, same⟩ := toDifferences_keeps _ written
  obtain ⟨linear, -⟩ := factorOfRoot_spec (R := R) unknown root
  rw [defined_product, val_product]
  refine ⟨List.forall_mem_cons.mpr ⟨linear, List.forall_mem_singleton.mpr difference⟩, ?_⟩
  rw [← image, whole, zero, add_zero, Polynomial.eval_mul, ← Polynomial.valueAt,
    ← Polynomial.valueAt, divisorValue, List.map_cons, List.map_cons, List.map_nil, List.prod_cons,
    List.prod_singleton, Expr.differenceForm, same, writtenValue, mul_comm]

theorem factorRationalRoot_keeps {e : Expr} (words : coefficientsInWords e = true) :
    R.Keeps e (factorRationalRoot e).expr := by
  intro h
  unfold factorRationalRoot
  dsimp only
  split
  · rename_i unknown cs found
    split
    · exact ⟨h, rfl⟩
    split
    · rename_i root _
      split
      · rename_i quotient remainder division
        split
        · rename_i nothing
          obtain ⟨exact, short, value⟩ := unknownAndCoefficients?_spec h found
          obtain ⟨defined, same⟩ := linearFactor_spec (R := R) exact short division nothing
          exact ⟨defined, same.trans (value words)⟩
        · exact ⟨h, rfl⟩
      · exact ⟨h, rfl⟩
    · exact ⟨h, rfl⟩
  · exact ⟨h, rfl⟩

end Reading

end SymbolicAlgebra
