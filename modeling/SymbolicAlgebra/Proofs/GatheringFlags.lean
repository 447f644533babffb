import SymbolicAlgebra.Factor.Quadratic
import SymbolicAlgebra.Product.EqualExponents
import SymbolicAlgebra.Proofs.ChangeFlags
import SymbolicAlgebra.Proofs.Constants
import SymbolicAlgebra.Rule.Arithmetic

/-! Which passes tell the truth when they say that nothing has changed. All but two do. Gathering
like terms and factors moves a complex constant to its place without a word, and gathering powers
puts them behind the other factors; where those stand in their places already, these two tell the
truth as well. -/
namespace SymbolicAlgebra

/-! ## Groups -/

section Groups

variable {α β γ : Type*}

/-- A way to put an element into groups that tries them in turn and ends with one of its own. -/
theorem length_insert_or_append (insert : List γ → List γ) {own : γ} (empty : insert [] = [own])
    (turn : ∀ g groups, (∃ joined, insert (g :: groups) = joined :: groups) ∨
      insert (g :: groups) = g :: insert groups) (groups : List γ) :
    (insert groups).length = groups.length ∨ insert groups = groups ++ [own] := by
  induction groups with
  | nil => exact .inr empty
  | cons g groups ih =>
    obtain ⟨joined, here⟩ | later := turn g groups
    · exact .inl (by rw [here, List.length_cons, List.length_cons])
    · rw [later]
      obtain kept | appended := ih
      · exact .inl (by rw [List.length_cons, kept, List.length_cons])
      · exact .inr (by rw [appended, List.cons_append])

/-- As many groups as elements: each element has one of its own, which shows it as it was. -/
theorem map_foldl_of_length {insert : List γ → α → List γ} {own : α → γ}
    (step : ∀ groups x,
      (insert groups x).length = groups.length ∨ insert groups x = groups ++ [own x])
    (xs : List α) (groups : List γ) :
    (xs.foldl insert groups).length ≤ groups.length + xs.length ∧
      ((xs.foldl insert groups).length = groups.length + xs.length →
        xs.foldl insert groups = groups ++ xs.map own) := by
  induction xs generalizing groups with
  | nil => simp
  | cons x xs ih =>
    obtain ⟨bound, whole⟩ := ih (insert groups x)
    rw [List.foldl_cons, List.length_cons]
    obtain joined | appended := step groups x
    · constructor
      · omega
      · intro long
        omega
    · have length : (insert groups x).length = groups.length + 1 := by rw [appended]; simp
      constructor
      · omega
      · intro long
        rw [whole (by omega), appended, List.append_assoc, List.singleton_append, List.map_cons]

end Groups

namespace TermGroup

theorem insert_cases (term : Expr) (groups : List TermGroup) :
    (insert term term.asMultiple groups).length = groups.length ∨
      insert term term.asMultiple groups =
        groups ++ [⟨term.asMultiple.2, term.asMultiple.1, some term⟩] := by
  refine length_insert_or_append (insert term term.asMultiple) rfl (fun g groups => ?_) groups
  rw [insert]
  split
  · exact .inl ⟨_, rfl⟩
  · exact .inr rfl

theorem toExpr_gather_of_length {terms : List Expr}
    (h : (gather terms).length = terms.length) : (gather terms).map toExpr = terms := by
  have whole := (map_foldl_of_length (fun groups term => insert_cases term groups) terms []).2
  rw [gather] at h ⊢
  rw [whole (by simpa using h)]
  simp [Function.comp_def, toExpr]

end TermGroup

namespace FactorGroup

theorem insert_cases (factor : Expr) (groups : List FactorGroup) :
    (insert factor factor.asPower groups).length = groups.length ∨
      insert factor factor.asPower groups =
        groups ++ [⟨factor.asPower.1, [factor.asPower.2], some factor⟩] := by
  refine length_insert_or_append (insert factor factor.asPower) rfl (fun g groups => ?_) groups
  rw [insert]
  split
  · exact .inl ⟨_, rfl⟩
  · exact .inr rfl

theorem toExpr?_gather_of_length {factors : List Expr}
    (h : (gather factors).length = factors.length) :
    (gather factors).filterMap toExpr? = factors := by
  have whole := (map_foldl_of_length (fun groups factor => insert_cases factor groups) factors []).2
  rw [gather] at h ⊢
  rw [whole (by simpa using h)]
  simp [List.filterMap_map, Function.comp_def, toExpr?]

end FactorGroup

namespace SameExponent

theorem insert_cases (p : Expr × Expr) (groups : List SameExponent) :
    (insert p.1 p.2 groups).length = groups.length ∨
      insert p.1 p.2 groups = groups ++ [⟨p.2, [p.1]⟩] := by
  refine length_insert_or_append (insert p.1 p.2) rfl (fun g groups => ?_) groups
  rw [insert]
  split
  · exact .inl ⟨_, rfl⟩
  · exact .inr rfl

/-- The number of bases in all groups. -/
def baseCount (groups : List SameExponent) : Nat := (groups.map fun g => g.bases.length).sum

theorem baseCount_insert (base exponent : Expr) (groups : List SameExponent) :
    baseCount (insert base exponent groups) = baseCount groups + 1 := by
  induction groups with
  | nil => rfl
  | cons g groups ih =>
    rw [insert]
    split
    · simp only [baseCount, List.map_cons, List.sum_cons, List.length_append, List.length_singleton]
      omega
    · simp only [baseCount, List.map_cons, List.sum_cons] at ih ⊢
      omega

theorem baseCount_foldl (powers : List (Expr × Expr)) (groups : List SameExponent) :
    baseCount (powers.foldl (fun groups p => insert p.1 p.2 groups) groups) =
      baseCount groups + powers.length := by
  induction powers generalizing groups with
  | nil => rfl
  | cons p powers ih => rw [List.foldl_cons, ih, baseCount_insert, List.length_cons]; omega

theorem baseCount_le_of_single {groups : List SameExponent}
    (single : (groups.any fun g => 1 < g.bases.length) = false) :
    baseCount groups ≤ groups.length := by
  induction groups with
  | nil => exact Nat.le_refl 0
  | cons g groups ih =>
    simp only [List.any_cons, Bool.or_eq_false_iff, decide_eq_false_iff_not] at single
    have rest := ih single.2
    simp only [baseCount, List.map_cons, List.sum_cons, List.length_cons] at rest ⊢
    omega

/-- Where no two powers share an exponent the groups are the powers. -/
theorem toExpr_gather_of_single {xs : List Expr}
    (single : ((gather xs).any fun g => 1 < g.bases.length) = false) :
    (gather xs).map toExpr =
      (xs.filterMap (Expr.sides? .power)).map fun p => Expr.pow p.1 p.2 := by
  have few := baseCount_le_of_single single
  rw [gather] at few ⊢
  rw [baseCount_foldl] at few
  obtain ⟨bound, whole⟩ :=
    map_foldl_of_length (fun groups p => insert_cases p groups) (xs.filterMap (Expr.sides? .power)) []
  have none : baseCount [] = 0 := rfl
  rw [whole (by simp only [List.length_nil] at bound ⊢; omega)]
  simp [Function.comp_def, toExpr, Expr.product]

end SameExponent

/-! ## Sums -/

/-- A complex numeral that is no real number. -/
def Expr.isImaginary : Expr → Bool
  | .complex z => !z.isReal
  | _ => false

/-- A complex numeral that is the only constant of a sum stands last, that of a product first, and
is no real number. -/
def Expr.HasConstantInPlace : Expr → Prop
  | .node .add xs =>
    xs.any isComplex = true → (xs.filter isAddedConstant).length = 1 → xs.getLast?.any isImaginary
  | .node .multiply xs =>
    xs.any isComplex = true → (xs.filter isNumeralFactor).length = 1 → xs.head?.any isImaginary
  | _ => True

/-- No other factor of a product stands after a power. -/
def Expr.HasPowersLast : Expr → Prop
  | .node .multiply xs =>
    xs.Pairwise fun x y => (x.sides? .power).isSome → (y.sides? .power).isSome
  | _ => True

instance : DecidablePred Expr.HasConstantInPlace
  | .node .add _ | .node .multiply _ => inferInstanceAs (Decidable (_ = true → _ = 1 → _ = true))
  | .node .subtract _ | .node .divide _ | .node .power _ | .node .modulus _ | .node .bitAnd _
  | .node .bitOr _ | .node .bitXor _ | .node .leftShift _ | .node .rightShift _
  | .number _ | .complex _ | .ident _ | .call _ _ => .isTrue trivial

instance : DecidablePred Expr.HasPowersLast
  | .node .multiply xs => inferInstanceAs (Decidable (xs.Pairwise _))
  | .node .add _ | .node .subtract _ | .node .divide _ | .node .power _ | .node .modulus _
  | .node .bitAnd _ | .node .bitOr _ | .node .bitXor _ | .node .leftShift _ | .node .rightShift _
  | .number _ | .complex _ | .ident _ | .call _ _ => .isTrue trivial

section Constants

variable {α : Type*} {p : α → Bool}

/-- The only element with a property, if it stands last. -/
theorem eq_append_of_filter_singleton {xs : List α} {c : α} (only : xs.filter p = [c])
    (last : (xs.getLast?.map p).getD false = true) : xs = xs.filter (fun x => !p x) ++ [c] := by
  obtain rfl | ⟨before, x, rfl⟩ := xs.eq_nil_or_concat
  · cases only
  · rw [List.concat_eq_append] at only last ⊢
    have here : p x = true := by simpa using last
    rw [List.filter_append, List.filter_singleton, here, cond_true] at only
    have split : before.filter p ++ [x] = [] ++ [c] := only
    obtain ⟨none, same⟩ := List.append_inj' split rfl
    obtain rfl := List.singleton_inj.mp same
    have others : before.filter (fun x => !p x) = before :=
      List.filter_eq_self.mpr fun y member => by simpa using List.filter_eq_nil_iff.mp none y member
    rw [List.filter_append, List.filter_singleton, here, others, Bool.not_true, cond_false,
      List.append_nil]

/-- The only element with a property, if it stands first. -/
theorem eq_cons_of_filter_singleton {xs : List α} {c : α} (only : xs.filter p = [c])
    (first : (xs.head?.map p).getD false = true) : xs = c :: xs.filter (fun x => !p x) := by
  cases xs with
  | nil => cases only
  | cons x xs =>
    have here : p x = true := first
    rw [List.filter_cons_of_pos here, List.cons.injEq] at only
    obtain ⟨rfl, none⟩ := only
    have others : xs.filter (fun x => !p x) = xs :=
      List.filter_eq_self.mpr fun y member => by simpa using List.filter_eq_nil_iff.mp none y member
    rw [List.filter_cons_of_neg (by simp [here]), others]

end Constants

theorem isAddedConstant_of_isZero {e : Expr} (h : e.isZero = true) : e.isAddedConstant = true := by
  cases e with
  | number x => rfl
  | _ => cases h

/-- At most one constant, and that one last, stands where it stood. -/
theorem terms_append_addedConstant {xs : List Expr}
    (few : ¬1 < (xs.filter Expr.isAddedConstant).length)
    (trailing : (xs.filter Expr.isAddedConstant).length = 1 →
      (xs.getLast?.map Expr.isAddedConstant).getD false = true) :
    xs.filter (fun x => !x.isAddedConstant) ++
      (addedConstant (xs.filter Expr.isAddedConstant)).toList = xs := by
  match constants : xs.filter Expr.isAddedConstant with
  | [] =>
    rw [addedConstant, Option.toList_none, List.append_nil, List.filter_eq_self]
    exact fun x member => by simpa using List.filter_eq_nil_iff.mp constants x member
  | [c] =>
    rw [constants] at trailing
    exact (eq_append_of_filter_singleton constants (trailing rfl)).symm
  | _ :: _ :: _ =>
    rw [constants] at few
    exact absurd (by simp) few

/-- Unchanged addends were not folded before, and stand as they did. -/
theorem collectAddends_unchanged {folded : Bool} {xs : List Expr}
    (unchanged : (collectAddends folded xs).changed = false) :
    folded = false ∧ (collectAddends folded xs).expr = .sum xs := by
  revert unchanged
  rw [collectAddends]
  simp only [List.partition_eq_filter_filter]
  split
  · nofun
  · split
    · nofun
    · intro unchanged
      simp only [Bool.or_eq_false_iff, bne_eq_false_iff_eq, decide_eq_false_iff_not] at unchanged
      obtain ⟨⟨unfolded, few, trailing⟩, alone⟩ := unchanged
      have moved : (xs.filter Expr.isAddedConstant).length = 1 →
          (xs.getLast?.map Expr.isAddedConstant).getD false = true :=
        fun one => by simpa [one] using trailing
      have terms : (xs.filter fun x => !x.isAddedConstant).filter (fun e => !e.isZero) =
          xs.filter fun x => !x.isAddedConstant :=
        List.filter_eq_self.mpr fun x member => by
          have symbolic := List.of_mem_filter member
          cases zero : x.isZero with
          | false => rfl
          | true => simp [isAddedConstant_of_isZero zero] at symbolic
      refine ⟨unfolded, ?_⟩
      rw [TermGroup.toExpr_gather_of_length alone]
      exact congrArg Expr.sum ((congrArg (· ++ _) terms).trans (terms_append_addedConstant few moved))

/-- The only constant of operands with a complex one among them. -/
theorem exists_only_complex {p : Expr → Bool} (constant : ∀ z, p (.complex z) = true)
    {xs : List Expr} (complex : xs.any Expr.isComplex = true)
    (few : ¬1 < (xs.filter p).length) : ∃ z, .complex z ∈ xs ∧ xs.filter p = [.complex z] := by
  obtain ⟨e, member, isComplex⟩ := List.any_eq_true.mp complex
  cases e with
  | complex z =>
    have inside : Expr.complex z ∈ xs.filter p := List.mem_filter.mpr ⟨member, constant z⟩
    match constants : xs.filter p with
    | [] => simp [constants] at inside
    | [c] =>
      rw [constants] at inside
      exact ⟨z, member, by rw [List.mem_singleton.mp inside]⟩
    | _ :: _ :: _ =>
      rw [constants] at few
      exact absurd (by simp) few
  | _ => cases isComplex

theorem eq_complex_of_isImaginary {e : Expr} (h : e.isImaginary = true) :
    ∃ z : ComplexNumeral, e = .complex z ∧ z.isReal = false := by
  cases e with
  | complex z => exact ⟨z, rfl, by simpa [Expr.isImaginary] using h⟩
  | _ => cases h

/-- Of a single constant that stands at one end, that it is imaginary. -/
theorem imaginary_of_only {p : Expr → Bool} (constant : ∀ z, p (.complex z) = true) {xs : List Expr}
    {z : ComplexNumeral} (only : xs.filter p = [.complex z]) {x : Expr} (member : x ∈ xs)
    (imaginary : x.isImaginary = true) : z.isReal = false ∧ p x = true := by
  obtain ⟨w, rfl, notReal⟩ := eq_complex_of_isImaginary imaginary
  have inside : Expr.complex w ∈ xs.filter p := List.mem_filter.mpr ⟨member, constant w⟩
  rw [only, List.mem_singleton, Expr.complex.injEq] at inside
  exact ⟨inside ▸ notReal, constant w⟩

theorem add_zero_complex {z : ComplexNumeral} (exact : z.re.isExact ∧ z.im.isExact) :
    (ComplexNumeral.ofReal .zero).add z = z := by
  obtain ⟨r, s, rfl⟩ := ComplexNumeral.exists_exact exact
  simp [ComplexNumeral.add, ComplexNumeral.ofReal, Numeral.add, Numeral.zero, Numeral.ofInt,
    Numeral.lift₂]

/-- An exact complex constant that stands last already is added to nothing. -/
theorem addComplexConstants_of_last {xs : List Expr} {z : ComplexNumeral}
    (exact : z.re.isExact ∧ z.im.isExact) (imaginary : z.isReal = false)
    (only : xs.filter Expr.isAddedConstant = [.complex z])
    (last : (xs.getLast?.map Expr.isAddedConstant).getD false = true) :
    Expr.addComplexConstants xs = xs := by
  have whole := eq_append_of_filter_singleton only last
  have none (x : Expr) (member : x ∈ xs.filter fun x => !x.isAddedConstant) : x.complex? = none := by
    simpa [Expr.isAddedConstant] using List.of_mem_filter member
  have values : xs.filterMap Expr.complex? = [z] := by
    rw [whole, List.filterMap_append, List.filterMap_eq_nil_iff.mpr none]
    rfl
  have others : xs.filter (fun x => x.complex?.isNone) = xs.filter fun x => !x.isAddedConstant :=
    List.filter_congr fun x _ => by simp [Expr.isAddedConstant]
  have total : Expr.ofComplex (([z] : List ComplexNumeral).foldl .add (.ofReal .zero)) =
      .complex z := by
    rw [List.foldl_cons, List.foldl_nil, add_zero_complex exact, Expr.ofComplex, imaginary]
    rfl
  rw [Expr.addComplexConstants, values, others, total, ← whole]

theorem collectSum_truthful {xs : List Expr} (two : 2 ≤ xs.length)
    (wellFormed : ∀ x ∈ xs, x.IsWellFormed)
    (inPlace : (Expr.node .add xs).HasConstantInPlace) :
    (collectSum xs).Truthful (.node .add xs) := by
  unfold collectSum
  split
  · exact Step.truthful_new _ _
  · split
    · rename_i complex
      intro unchanged
      obtain ⟨few, same⟩ := collectAddends_unchanged unchanged
      rw [decide_eq_false_iff_not] at few
      obtain ⟨z, member, only⟩ := exists_only_complex (fun _ => rfl) complex few
      obtain ⟨x, found, atEnd⟩ := (Option.any_eq_true _ _).mp (inPlace complex (by rw [only]; rfl))
      obtain ⟨imaginary, constant⟩ :=
        imaginary_of_only (fun _ => rfl) only (List.mem_of_getLast? found) atEnd
      rw [same, addComplexConstants_of_last (wellFormed _ member) imaginary only
        (by rw [found]; exact constant)]
      exact sum_eq_node two
    · intro unchanged
      exact (collectAddends_unchanged unchanged).2.trans (sum_eq_node two)

/-! ## Products -/

theorem numeralProduct_singleton {x : Numeral} (exact : x.isExact = true) :
    Expr.numeralProduct [.number x] = x := by
  obtain ⟨r, rfl⟩ := Numeral.exists_exact exact
  simp [Expr.numeralProduct, Expr.number?, Numeral.mul, Numeral.one, Numeral.ofInt, Numeral.lift₂]

/-- Factors of different bases, none of them calls that reduce, come out as they were. -/
theorem unreduced_of_length {factors : List Expr}
    (alone : (FactorGroup.gather factors).length = factors.length)
    (unreduced :
      (reduceCalls? ((FactorGroup.gather factors).filterMap FactorGroup.toExpr?)).isSome = false) :
    (reduceCalls? ((FactorGroup.gather factors).filterMap FactorGroup.toExpr?)).getD
      ((FactorGroup.gather factors).filterMap FactorGroup.toExpr?) = factors := by
  rw [Option.isSome_eq_false_iff, Option.isNone_iff_eq_none] at unreduced
  rw [unreduced, Option.getD_none, FactorGroup.toExpr?_gather_of_length alone]

/-- The only numeral, if it stands first, stands where it stood. -/
theorem number_cons_factors {xs : List Expr} (exact : ∀ x, .number x ∈ xs → x.isExact = true)
    (few : ¬1 < (xs.filter Expr.isNumber).length) (some : xs.filter Expr.isNumber ≠ [])
    (leading : (xs.filter Expr.isNumber).length = 1 →
      (xs.head?.map Expr.isNumber).getD false = true) :
    .number (Expr.numeralProduct (xs.filter Expr.isNumber)) :: xs.filter (fun x => !x.isNumber) =
      xs := by
  match numerals : xs.filter Expr.isNumber with
  | [] => exact absurd numerals some
  | [c] =>
    rw [numerals] at leading
    have whole := eq_cons_of_filter_singleton numerals (leading rfl)
    have inside : c ∈ xs.filter Expr.isNumber := by rw [numerals]; exact List.mem_singleton_self c
    obtain ⟨member, isNumber⟩ := List.mem_filter.mp inside
    cases c with
    | number x => rw [numeralProduct_singleton (exact x member), ← whole]
    | _ => cases isNumber
  | _ :: _ :: _ =>
    rw [numerals] at few
    exact absurd (by simp) few

/-- Unchanged factors were not folded before, and stand as they did. -/
theorem collectFactors_unchanged {folded : Bool} {xs : List Expr}
    (unchanged : (collectFactors folded xs).changed = false) :
    folded = false ∧ ((∀ x, .number x ∈ xs → x.isExact = true) →
      (collectFactors folded xs).expr = .product xs) := by
  revert unchanged
  rw [collectFactors]
  simp only [List.partition_eq_filter_filter]
  split
  · nofun
  · split
    · nofun
    · split
      · intro unchanged
        simp only [Bool.or_eq_false_iff, bne_eq_false_iff_eq, Bool.not_eq_false',
          List.isEmpty_iff] at unchanged
        obtain ⟨⟨⟨⟨unfolded, -⟩, alone⟩, unreduced⟩, none⟩ := unchanged
        have all : xs.filter (fun x => !x.isNumber) = xs :=
          List.filter_eq_self.mpr fun x member => by
            simpa using List.filter_eq_nil_iff.mp none x member
        exact ⟨unfolded, fun _ =>
          congrArg Expr.product ((unreduced_of_length alone unreduced).trans all)⟩
      · rename_i notOne
        intro unchanged
        simp only [Bool.or_eq_false_iff, bne_eq_false_iff_eq, decide_eq_false_iff_not] at unchanged
        obtain ⟨⟨⟨unfolded, few, leading⟩, alone⟩, unreduced⟩ := unchanged
        have some : xs.filter Expr.isNumber ≠ [] := by
          intro none
          rw [none] at notOne
          exact notOne rfl
        refine ⟨unfolded, fun exact => congrArg Expr.product ?_⟩
        have whole := number_cons_factors exact few some fun one => by simpa [one] using leading
        exact (congrArg (_ :: ·) (unreduced_of_length alone unreduced)).trans whole

theorem mul_one_complex {z : ComplexNumeral} (exact : z.re.isExact ∧ z.im.isExact) :
    ComplexNumeral.one.mul z = z := by
  obtain ⟨r, s, rfl⟩ := ComplexNumeral.exists_exact exact
  simp [ComplexNumeral.mul, ComplexNumeral.one, ComplexNumeral.ofReal, Numeral.mul, Numeral.sub,
    Numeral.add, Numeral.one, Numeral.zero, Numeral.ofInt, Numeral.lift₂]

/-- An exact complex constant that stands first already is multiplied by nothing. -/
theorem multiplyComplexConstants_of_first {xs : List Expr} {z : ComplexNumeral}
    (exact : z.re.isExact ∧ z.im.isExact) (imaginary : z.isReal = false)
    (only : xs.filter Expr.isNumeralFactor = [.complex z])
    (first : (xs.head?.map Expr.isNumeralFactor).getD false = true) :
    Expr.multiplyComplexConstants xs = xs := by
  have whole := eq_cons_of_filter_singleton only first
  rw [Expr.multiplyComplexConstants, only]
  have total : (([Expr.complex z].filterMap Expr.complex?).foldl ComplexNumeral.mul .one) = z :=
    mul_one_complex exact
  rw [total, imaginary]
  exact whole.symm

theorem collectProduct_truthful {xs : List Expr} (two : 2 ≤ xs.length)
    (wellFormed : ∀ x ∈ xs, x.IsWellFormed)
    (inPlace : (Expr.node .multiply xs).HasConstantInPlace) :
    (collectProduct xs).Truthful (.node .multiply xs) := by
  unfold collectProduct
  split
  · rename_i complex
    intro unchanged
    obtain ⟨few, same⟩ := collectFactors_unchanged unchanged
    rw [decide_eq_false_iff_not] at few
    obtain ⟨z, member, only⟩ := exists_only_complex (fun _ => rfl) complex few
    obtain ⟨x, found, inFront⟩ := (Option.any_eq_true _ _).mp (inPlace complex (by rw [only]; rfl))
    obtain ⟨imaginary, constant⟩ :=
      imaginary_of_only (fun _ => rfl) only (List.mem_of_mem_head? found) inFront
    rw [multiplyComplexConstants_of_first (wellFormed _ member) imaginary only
      (by rw [found]; exact constant)] at same ⊢
    rw [same fun x member => wellFormed _ member, product_eq_node two]
  · intro unchanged
    exact ((collectFactors_unchanged unchanged).2 fun x member => wellFormed _ member).trans
      (product_eq_node two)

/-! ## Powers, differences, quotients and integers -/

theorem simplifyNumeralPower_truthful (base value : Numeral) (exponent : Expr) :
    (simplifyNumeralPower base value exponent).Truthful (.pow (.number base) exponent) := by
  unfold simplifyNumeralPower
  dsimp only
  repeat' split
  all_goals simp

theorem simplifyIntegerPower_truthful (base : Expr) (n : Int) (exponent : Expr) :
    (simplifyIntegerPower base n exponent).Truthful (.pow base exponent) := by
  unfold simplifyIntegerPower
  split
  · exact Step.truthful_new _ _
  · split
    · split <;> simp
    · exact Step.truthful_new _ _
    · split <;> simp
    · split <;> simp [Expr.div]
    · exact Step.truthful_same _

theorem simplifySymbolicPower_truthful (base exponent : Expr) :
    (simplifySymbolicPower base exponent).Truthful (.pow base exponent) := by
  unfold simplifySymbolicPower
  split
  · exact simplifyIntegerPower_truthful _ _ _
  · split <;> simp

theorem simplifyPower_truthful (base exponent : Expr) :
    (simplifyPower base exponent).Truthful (.pow base exponent) := by
  unfold simplifyPower
  split
  · split
    · split <;> simp
    · exact simplifySymbolicPower_truthful _ _
  · split
    · exact simplifyNumeralPower_truthful _ _ _
    · exact simplifySymbolicPower_truthful _ _
  · exact simplifySymbolicPower_truthful _ _

theorem simplifyDifference_truthful (a b : Expr) :
    (simplifyDifference a b).Truthful (.sub a b) := by
  unfold simplifyDifference
  split
  · exact Step.truthful_new _ _
  · dsimp only
    split <;> simp

theorem simplifyQuotient_truthful (a b : Expr) : (simplifyQuotient a b).Truthful (.div a b) := by
  unfold simplifyQuotient
  split <;> simp

theorem simplifyIntegers_truthful (op : Operator) (xs : List Expr) :
    (simplifyIntegers op xs).Truthful (.node op xs) := by
  unfold simplifyIntegers
  split <;> simp

theorem collectNode_truthful {e : Expr} (wellFormed : e.AllParts Expr.IsWellFormed)
    (inPlace : e.HasConstantInPlace) : (collectNode e).Truthful e := by
  unfold collectNode
  split
  · exact collectSum_truthful wellFormed.here.1 (fun x member => (wellFormed.operands x member).here)
      inPlace
  · exact collectProduct_truthful wellFormed.here.1
      (fun x member => (wellFormed.operands x member).here) inPlace
  · exact simplifyPower_truthful _ _
  · exact Step.truthful_same _
  · exact simplifyDifference_truthful _ _
  · exact Step.truthful_same _
  · exact simplifyQuotient_truthful _ _
  · exact Step.truthful_same _
  · exact simplifyIntegers_truthful _ _
  · exact Step.truthful_same _

/-! ## Shared exponents -/

theorem map_filterMap_eq_filter {α β : Type*} {f : α → Option β} {g : β → α}
    (back : ∀ x y, f x = some y → g y = x) (xs : List α) :
    (xs.filterMap f).map g = xs.filter fun x => (f x).isSome := by
  induction xs with
  | nil => rfl
  | cons x xs ih =>
    cases found : f x with
    | none => rw [List.filterMap_cons_none found, ih, List.filter_cons_of_neg (by simp [found])]
    | some y =>
      rw [List.filterMap_cons_some found, List.map_cons, ih, back x y found,
        List.filter_cons_of_pos (by simp [found])]

theorem filter_not_append_filter {α : Type*} {p : α → Bool} {xs : List α}
    (last : xs.Pairwise fun x y => p x → p y) : xs.filter (fun x => !p x) ++ xs.filter p = xs := by
  induction xs with
  | nil => rfl
  | cons x xs ih =>
    obtain ⟨here, there⟩ := List.pairwise_cons.mp last
    cases found : p x with
    | false =>
      rw [List.filter_cons_of_pos (by simp [found]), List.filter_cons_of_neg (by simp [found]),
        List.cons_append, ih there]
    | true =>
      have all : xs.filter p = xs := List.filter_eq_self.mpr fun y member => here y member found
      have none : xs.filter (fun x => !p x) = [] :=
        List.filter_eq_nil_iff.mpr fun y member => by simp [here y member found]
      rw [List.filter_cons_of_neg (by simp [found]), List.filter_cons_of_pos found, all, none,
        List.nil_append]

theorem shareProductExponents_truthful {xs : List Expr} (two : 2 ≤ xs.length)
    (last : (Expr.node .multiply xs).HasPowersLast) :
    (shareProductExponents xs).Truthful (.node .multiply xs) := by
  intro unchanged
  have groups := SameExponent.toExpr_gather_of_single unchanged
  have back (x : Expr) (p : Expr × Expr) (found : x.sides? .power = some p) :
      Expr.pow p.1 p.2 = x := (Expr.eq_node_of_sides? found).symm
  rw [map_filterMap_eq_filter back] at groups
  have others : xs.filter (fun x => (x.sides? .power).isNone) =
      xs.filter fun x => !(x.sides? .power).isSome :=
    List.filter_congr fun x _ => by rw [Option.not_isSome]
  rw [shareProductExponents]
  dsimp only
  rw [groups, others, filter_not_append_filter last, product_eq_node two]

theorem shareExponentsNode_truthful {e : Expr} (wellFormed : e.IsWellFormed)
    (last : e.HasPowersLast) : (shareExponentsNode e).Truthful e := by
  unfold shareExponentsNode
  split
  · exact shareProductExponents_truthful wellFormed.1 last
  · split <;> simp [Expr.div, Expr.pow]
  · exact Step.truthful_same _

/-! ## All passes -/

/-- The passes other than gathering. -/
def rewritePasses (simplify : Expr → Expr) (tolerance : Binary64) : List (Expr → Step) :=
  [flatten, orderOperands, trim, reduceQuotients, distribute, distributeFully, expandPowers,
    expandQuotients, expandExponents, toSums, toDifferences, toProducts, toQuotients, numbersFirst,
    toCommonDenominator, positiveFirst, evaluateCalls, factorShared, factorContent simplify,
    factorGroups simplify, factorRationalRoot, factorSquares, factorCubes simplify,
    factorQuadraticExactly, factorQuadraticNearly tolerance]

theorem rewritePasses_truthful (simplify : Expr → Expr) (tolerance : Binary64) {e : Expr}
    (wellFormed : e.AllParts Expr.IsWellFormed) :
    ∀ pass ∈ rewritePasses simplify tolerance, (pass e).Truthful e := by
  have two (part : Expr) (h : part.IsWellFormed) (op : Operator) (xs : List Expr)
      (same : part = .node op xs) (_ : op.isAssociative = true) : 2 ≤ xs.length := by
    subst same
    exact h.1
  have at_every_node {rule : Expr → Step} (each : ∀ part, (rule part).Truthful part) :
      (everywhere rule e).Truthful e := everywhere_truthful_of_forall each e
  simp only [rewritePasses, List.forall_mem_cons]
  refine ⟨at_every_node flattenNode_truthful, at_every_node orderOperandsNode_truthful,
    everywhere_truthful (wellFormed.mono fun _ h => trimNode_truthful (two _ h)),
    at_every_node reduceQuotientsNode_truthful, at_every_node distributeNode_truthful,
    repeatPass_truthful _ (distributionRound_truthful e),
    at_every_node (expandPower_truthful _), at_every_node splitNumerator_truthful,
    at_every_node splitExponent_truthful, at_every_node differenceToSum_truthful,
    at_every_node sumToDifference_truthful, at_every_node quotientToProduct_truthful,
    at_every_node productToQuotient_truthful, at_every_node numbersFirstNode_truthful,
    at_every_node commonDenominatorNode_truthful, at_every_node orderAddends_truthful,
    at_every_node evaluateAnyCall_truthful, at_every_node factorSharedNode_truthful,
    factorContent_truthful simplify e, factorGroups_truthful simplify e,
    factorRationalRoot_truthful e, factorSquares_truthful e, factorCubes_truthful simplify e,
    factorQuadraticExactly_truthful e, factorQuadraticNearly_truthful e tolerance, nofun⟩

/-- A pass that did not fire left the tree as it was. Gathering terms and factors does so where a
lone complex constant is in its place, gathering powers where they come last already. -/
theorem eq_of_not_fired (simplify : Expr → Expr) (tolerance : Binary64) {e : Expr}
    (wellFormed : e.AllParts Expr.IsWellFormed) :
    (∀ pass ∈ rewritePasses simplify tolerance, (pass e).Truthful e) ∧
      (e.AllParts Expr.HasConstantInPlace → (collectLike e).Truthful e) ∧
      (e.AllParts Expr.HasPowersLast → (shareExponents e).Truthful e) := by
  refine ⟨rewritePasses_truthful simplify tolerance wellFormed, fun inPlace => ?_, fun last => ?_⟩
  · exact everywhere_truthful
      ((wellFormed.parts.and inPlace).mono fun _ h => collectNode_truthful h.1 h.2)
  · exact everywhere_truthful
      ((wellFormed.and last).mono fun _ h => shareExponentsNode_truthful h.1 h.2)

/-- In `x * y ^ 2 + (1 + i)` the constant and the power are in their places. -/
theorem eq_of_not_fired_in_place :
    let e : Expr := .add (.mul (.ident "x") (.pow (.ident "y") (.ofInt 2))) (.complex ⟨.one, .one⟩)
    e.AllParts Expr.IsWellFormed ∧ e.AllParts Expr.HasConstantInPlace ∧
      e.AllParts Expr.HasPowersLast ∧ (∀ pass ∈ rewritePasses id .zero, (pass e).Truthful e) ∧
      (collectLike e).Truthful e ∧ (shareExponents e).Truthful e := by
  intro e
  have wellFormed : e.AllParts Expr.IsWellFormed := by decide +kernel
  have inPlace : e.AllParts Expr.HasConstantInPlace := by decide +kernel
  have last : e.AllParts Expr.HasPowersLast := by decide +kernel
  obtain ⟨all, gathering, sharing⟩ := eq_of_not_fired id .zero wellFormed
  exact ⟨wellFormed, inPlace, last, all, gathering inPlace, sharing last⟩

/-- `x ^ 2 * y` becomes `y * x ^ 2`, and `(1 + i) + x` becomes `x + (1 + i)`, and neither pass says
so. -/
theorem moved_without_firing :
    let powerFirst := Expr.mul (.pow (.ident "x") (.ofInt 2)) (.ident "y")
    let constantFirst := Expr.add (.complex ⟨.one, .one⟩) (.ident "x")
    powerFirst.AllParts Expr.IsWellFormed ∧ constantFirst.AllParts Expr.IsWellFormed ∧
      shareExponents powerFirst =
        .same (.mul (.ident "y") (.pow (.ident "x") (.ofInt 2))) ∧
      collectLike constantFirst = .same (.add (.ident "x") (.complex ⟨.one, .one⟩)) := by
  decide +kernel

end SymbolicAlgebra
