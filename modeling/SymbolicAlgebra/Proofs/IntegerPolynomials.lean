import Mathlib.RingTheory.Polynomial.GaussLemma
import SymbolicAlgebra.Proofs.PolynomialTrees
import SymbolicAlgebra.Proofs.SumFactoring

open Polynomial

/-! Trees that are read as polynomials with integer coefficients, the linear polynomials over the
integers that divide one, and the trees that linear factors are written as. -/
namespace SymbolicAlgebra

/-! ## Integers as numerals -/

namespace Numeral

theorem ofInt_injective : Function.Injective ofInt := fun m n same => by
  rw [ofInt, ofInt, exact.injEq] at same
  exact_mod_cast same

theorem exists_integer {y : Numeral} (h : y.isInteger = true) : ∃ n : ℤ, y = .ofInt n := by
  cases y with
  | exact r =>
    have integral : r.den = 1 := by simpa [isInteger] using h
    exact ⟨r.num, by rw [ofInt, Rat.den_eq_one_iff r |>.mp integral]⟩
  | float _ | nan => cases h

theorem isInteger_ofInt (n : ℤ) : (ofInt n).isInteger = true := isInteger_intCast n

theorem integer?_ofInt (n : ℤ) : (ofInt n).integer? = some n := by simp [ofInt, integer?]

theorem isZero_ofInt (n : ℤ) : (ofInt n).isZero = true ↔ n = 0 := by simp [ofInt]

theorem isOne_ofInt (n : ℤ) : (ofInt n).isOne = true ↔ n = 1 := by simp [ofInt]

theorem isNegative_ofInt (n : ℤ) : (ofInt n).isNegative = true ↔ n < 0 := by simp [ofInt]

theorem neg_ofInt (n : ℤ) : (ofInt n).neg = .ofInt (-n) := by
  rw [ofInt, ofInt, neg_exact, Int.cast_neg]

theorem add_ofInt (m n : ℤ) : (ofInt m).add (ofInt n) = .ofInt (m + n) := by
  rw [ofInt, ofInt, ofInt, add_exact, Int.cast_add]

theorem sub_ofInt (m n : ℤ) : (ofInt m).sub (ofInt n) = .ofInt (m - n) := by
  rw [ofInt, ofInt, ofInt, sub_exact, Int.cast_sub]

theorem mul_ofInt (m n : ℤ) : (ofInt m).mul (ofInt n) = .ofInt (m * n) := by
  rw [ofInt, ofInt, ofInt, mul_exact, Int.cast_mul]

theorem div_ofInt {m k n : ℤ} (nonzero : k ≠ 0) (product : k * n = m) :
    (ofInt m).div (ofInt k) = .ofInt n := by
  have divisor : (k : ℚ) ≠ 0 := Int.cast_ne_zero.mpr nonzero
  rw [ofInt, ofInt, ofInt, div_exact divisor, ← product, Int.cast_mul, mul_div_cancel_left₀ _ divisor]

theorem gcd?_ofInt (m n : ℤ) : (ofInt m).gcd? (ofInt n) = some (.ofInt (Int.gcd m n)) := by
  rw [gcd?, integer?_ofInt, integer?_ofInt]

end Numeral

/-! ## Polynomials over the integers -/

/-- The polynomial with these coefficients, from the highest exponent down. -/
noncomputable def integerPolynomial : List ℤ → ℤ[X]
  | [] => 0
  | c :: cs => integerPolynomial cs + Polynomial.C c * Polynomial.X ^ cs.length

theorem degree_integerPolynomial_lt (cs : List ℤ) : (integerPolynomial cs).degree < cs.length := by
  induction cs with
  | nil => simp [integerPolynomial]
  | cons c cs ih =>
    have wider : (cs.length : WithBot ℕ) < (cs.length + 1 : ℕ) :=
      Nat.cast_lt.mpr (Nat.lt_succ_self _)
    have lead := (Polynomial.degree_C_mul_X_pow_le cs.length c).trans_lt wider
    exact (Polynomial.degree_add_le _ _).trans_lt (max_lt (ih.trans wider) lead)

theorem leadingCoeff_integerPolynomial {c : ℤ} (cs : List ℤ) (nonzero : c ≠ 0) :
    (integerPolynomial (c :: cs)).leadingCoeff = c := by
  rw [integerPolynomial, Polynomial.leadingCoeff_add_of_degree_lt,
    Polynomial.leadingCoeff_C_mul_X_pow]
  rw [Polynomial.degree_C_mul_X_pow _ nonzero]
  exact degree_integerPolynomial_lt cs

theorem map_integerPolynomial (cs : List ℤ) :
    (integerPolynomial cs).map (Int.castRingHom ℚ) =
      Polynomial.descendingImage (Numeral.val ℚ) (cs.map .ofInt) := by
  induction cs with
  | nil => simp [integerPolynomial, Polynomial.descendingImage]
  | cons c cs ih => simp [integerPolynomial, Polynomial.descendingImage, ih]

/-- The linear polynomial with a rational root whose coefficients have no common divisor. -/
noncomputable def linearFactor (r : ℚ) : ℤ[X] :=
  Polynomial.C (r.den : ℤ) * Polynomial.X + Polynomial.C (-r.num)

theorem coeff_linearFactor_one (r : ℚ) : (linearFactor r).coeff 1 = r.den := by
  rw [linearFactor, Polynomial.coeff_add, Polynomial.coeff_C_mul, Polynomial.coeff_X_one,
    Polynomial.coeff_C_of_ne_zero one_ne_zero, mul_one, add_zero]

theorem coeff_linearFactor_zero (r : ℚ) : (linearFactor r).coeff 0 = -r.num := by
  rw [linearFactor, Polynomial.coeff_add, Polynomial.coeff_C_mul, Polynomial.coeff_X_zero,
    Polynomial.coeff_C_zero, mul_zero, zero_add]

theorem leadingCoeff_linearFactor (r : ℚ) : (linearFactor r).leadingCoeff = r.den :=
  Polynomial.leadingCoeff_linear (Int.natCast_ne_zero.mpr r.den_nz)

theorem linearFactor_isPrimitive (r : ℚ) : (linearFactor r).IsPrimitive := by
  intro d divides
  rw [Polynomial.C_dvd_iff_dvd_coeff] at divides
  have den : d ∣ r.den := coeff_linearFactor_one r ▸ divides 1
  have num : d ∣ -r.num := coeff_linearFactor_zero r ▸ divides 0
  exact r.isCoprime_num_den.isUnit_of_dvd' (dvd_neg.mp num) den

theorem map_linearFactor (r : ℚ) :
    (linearFactor r).map (Int.castRingHom ℚ) =
      Polynomial.C (r.den : ℚ) * (Polynomial.X - Polynomial.C r) := by
  have product : (r.den : ℚ) * r = r.num := Rat.den_mul_eq_num r
  rw [linearFactor, Polynomial.map_add, Polynomial.map_mul, Polynomial.map_C, Polynomial.map_C,
    Polynomial.map_X, mul_sub, ← Polynomial.C_mul, product, sub_eq_add_neg, ← Polynomial.C_neg]
  simp

/-- A linear polynomial without a common divisor divides where its root is one. -/
theorem linearFactor_dvd_iff (r : ℚ) (f : ℤ[X]) :
    linearFactor r ∣ f ↔ Polynomial.aeval r f = 0 := by
  have unit : IsUnit (Polynomial.C (r.den : ℚ)) :=
    Polynomial.isUnit_C.mpr (isUnit_iff_ne_zero.mpr (Nat.cast_ne_zero.mpr r.den_nz))
  rw [IsPrimitive.Int.dvd_iff_map_cast_dvd_map_cast _ _ (linearFactor_isPrimitive r),
    map_linearFactor, unit.mul_left_dvd, Polynomial.dvd_iff_isRoot, Polynomial.IsRoot,
    Polynomial.eval_map, Polynomial.aeval_def, algebraMap_int_eq]

/-! ## Integer coefficients -/

theorem exists_integers {cs : List Numeral} (h : ∀ c ∈ cs, c.isInteger = true) :
    ∃ zs : List ℤ, cs = zs.map .ofInt := by
  induction cs with
  | nil => exact ⟨[], rfl⟩
  | cons c cs ih =>
    obtain ⟨here, there⟩ := List.forall_mem_cons.mp h
    obtain ⟨z, rfl⟩ := Numeral.exists_integer here
    obtain ⟨zs, rfl⟩ := ih there
    exact ⟨z :: zs, rfl⟩

theorem unknownAndCoefficients?_eq_some {integral : Bool} {e : Expr} {x : String}
    {cs : List Numeral} :
    unknownAndCoefficients? integral e = some (x, cs) ↔
      e.unknowns = [x] ∧ e.coefficients? integral = some cs := by
  unfold unknownAndCoefficients?
  split
  · rename_i only
    simp [only, and_comm, eq_comm]
  · rename_i other
    exact ⟨nofun, fun ⟨only, _⟩ => (other x only).elim⟩

/-- Whether the coefficients have to be integers only decides which lists are refused. -/
theorem coefficients?_eq_filter (integral : Bool) (e : Expr) :
    e.coefficients? integral =
      (e.coefficients? false).filter fun cs => !integral || cs.all Numeral.isInteger := by
  have refused (cs : List Numeral) :
      (if (integral && !cs.all Numeral.isInteger) = true then none else some cs) =
        Option.filter (fun cs => !integral || cs.all Numeral.isInteger) (some cs) := by
    cases integral <;> cases all : cs.all Numeral.isInteger <;> simp [Option.filter, all]
  unfold Expr.coefficients?
  dsimp only
  simp only [refused]
  split
  · split <;> simp
  · split <;> simp
  · rfl

/-- Integer coefficients are read whether they have to be integers or not. -/
theorem coefficients?_of_integers {integral : Bool} {e : Expr} {zs : List ℤ}
    (read : e.coefficients? integral = some (zs.map .ofInt)) (other : Bool) :
    e.coefficients? other = some (zs.map .ofInt) := by
  have integers : (zs.map Numeral.ofInt).all Numeral.isInteger = true := by
    simp [Numeral.isInteger_ofInt]
  rw [coefficients?_eq_filter, Option.filter_eq_some_iff] at read ⊢
  exact ⟨read.1, by rw [integers, Bool.or_true]⟩

theorem exists_of_coefficients? {integral : Bool} {e : Expr} {cs : List Numeral}
    (read : e.coefficients? integral = some cs) :
    ∃ x p, Polynomial.ReadAs numeralCoefficients x False e p ∧
      cs = p.descending Polynomial.exactArithmetic ∧
      (integral = true → ∀ c ∈ cs, c.isInteger = true) := by
  obtain ⟨x, p, polynomial, read⟩ : ∃ x p,
      Polynomial.ofExpr? numeralCoefficients x e = some p ∧
        (if integral && !(p.descending Polynomial.exactArithmetic).all Numeral.isInteger then none
          else some (p.descending Polynomial.exactArithmetic)) = some cs := by
    unfold Expr.coefficients? at read
    dsimp only at read
    split at read
    · split at read
      · exact ⟨_, _, ‹_›, read⟩
      · cases read
    · split at read
      · exact ⟨_, _, ‹_›, read⟩
      · cases read
    · cases read
  rw [Option.ite_none_left_eq_some, Option.some.injEq] at read
  obtain ⟨checked, rfl⟩ := read
  refine ⟨x, p, Polynomial.readAs_of_ofExpr? polynomial False.elim, rfl, ?_⟩
  rintro rfl
  simpa using checked

/-- There are no more coefficients than words. -/
theorem length_coefficients?_le {integral : Bool} {e : Expr} {cs : List Numeral}
    (read : e.coefficients? integral = some cs) : cs.length ≤ wordSize := by
  obtain ⟨_, p, polynomial, rfl, -⟩ := exists_of_coefficients? read
  exact polynomial.stored.length_descending_le

/-- Integer coefficients of a tree, of which the first is not zero unless it is the only one. -/
theorem exists_integers_of_coefficients? {e : Expr} {cs : List Numeral}
    (read : e.coefficients? true = some cs) :
    ∃ z zs, cs = (z :: zs).map .ofInt ∧ (zs ≠ [] → z ≠ 0) := by
  obtain ⟨x, p, polynomial, rfl, integral⟩ := exists_of_coefficients? read
  obtain ⟨c, rest, same, start⟩ := Polynomial.descending_eq_cons polynomial.stored
  rw [same] at integral ⊢
  obtain ⟨zs, integers⟩ := exists_integers (integral rfl)
  cases zs with
  | nil => cases integers
  | cons z zs =>
    obtain ⟨rfl, rfl⟩ := List.cons_eq_cons.mp integers
    refine ⟨z, zs, rfl, fun several zero => ?_⟩
    rcases start with ⟨-, -, alone⟩ | nonzero
    · exact several (List.map_eq_nil_iff.mp alone)
    · rw [zero] at nonzero
      cases nonzero

theorem lead_ne_zero {e : Expr} {z : ℤ} {zs : List ℤ}
    (read : e.coefficients? true = some ((z :: zs).map .ofInt)) (several : zs ≠ []) : z ≠ 0 := by
  obtain ⟨y, ys, same, lead⟩ := exists_integers_of_coefficients? read
  obtain ⟨rfl, rfl⟩ := List.cons_eq_cons.mp (Numeral.ofInt_injective.list_map same)
  exact lead several

theorem aeval_integerPolynomial (zs : List ℤ) (v : ℚ) :
    Polynomial.aeval v (integerPolynomial zs) =
      (Polynomial.descendingImage (Numeral.val ℚ) (zs.map .ofInt)).eval v := by
  rw [← map_integerPolynomial, Polynomial.eval_map, Polynomial.aeval_def, algebraMap_int_eq]

/-- A tree with exact numerals has the values of the polynomial that it is read as, where no exponent
leaves the word. -/
theorem val_eq_aeval {e : Expr} {x : String} {zs : List ℤ} (only : e.unknowns = [x])
    (read : e.coefficients? true = some (zs.map .ofInt)) (words : coefficientsInWords e = true)
    (exact : e.AllParts fun part => part.hasExactNumeral = true) (R : Reading ℚ) :
    R.Defined e ∧ R.val e = Polynomial.aeval (R.ident x) (integerPolynomial zs) := by
  obtain ⟨_, p, polynomial, -⟩ := exists_of_coefficients? read
  obtain ⟨defined, -⟩ := polynomial.defined exact R
  obtain ⟨-, -, value⟩ := Reading.unknownAndCoefficients?_spec defined
    (unknownAndCoefficients?_eq_some.mpr ⟨only, read⟩)
  exact ⟨defined, by rw [aeval_integerPolynomial, value words]⟩

/-! ## Linear trees -/

/-- The sum `p * x + q` for positive `p`, as it is written. -/
def linearTree (x : String) (p q : ℤ) : Expr :=
  let lead : Expr := if p = 1 then .ident x else .mul (.ofInt p) (.ident x)
  if q = 0 then lead else if q < 0 then .sub lead (.ofInt (-q)) else .add lead (.ofInt q)

example : linearTree "x" 2 (-3) = .sub (.mul (.ofInt 2) (.ident "x")) (.ofInt 3) := by decide

theorem scale_ident (x : String) (p : ℤ) (positive : 0 < p) :
    Expr.scale (.ofInt p) (.ident x) =
      if p = 1 then .ident x else .mul (.ofInt p) (.ident x) := by
  have whole : (Numeral.ofInt p).fraction? = none := by simp [Numeral.ofInt, Numeral.fraction?]
  rw [Expr.scale, whole]
  simp only [Expr.scaleWhole, Numeral.isZero_ofInt, Numeral.isOne_ofInt, positive.ne', ↓reduceIte]
  rfl

/-- A numeral after a term that is not negative is added or subtracted. -/
theorem differenceForm_pair {lead : Expr} (settled : lead.differenceForm = lead)
    (positive : lead.isNegative = false) (y : Numeral) :
    (Expr.sum [lead, .number y]).differenceForm =
      if y.isNegative then .sub lead (.number y.neg) else .add lead (.number y) := by
  have sign : (Expr.number y).isNegative = y.isNegative := rfl
  have forward : bringPositiveForward [lead, .number y] = ([lead, .number y], false) := by
    rw [bringPositiveForward, positive, if_neg Bool.false_ne_true]
  have below : everywhereAll sumToDifference [lead, .number y] = ([lead, .number y], _) :=
    Prod.ext (congrArg (· :: _) settled) rfl
  have shape : Expr.sum [lead, .number y] = .node .add [lead, .number y] := rfl
  rw [shape, Expr.differenceForm, toDifferences, everywhere, below, sumToDifference, forward]
  simp only [List.any_cons, List.any_nil, Bool.or_false, sign]
  split
  · rename_i negative
    have opposite : (Expr.number y).unsigned = .number y.neg := if_pos negative
    rw [Step.new, subtractFrom, sign, if_pos negative, subtractFrom, opposite]
    rfl
  · rfl

theorem linearSum_eq_linearTree (x : String) {p : ℤ} (positive : 0 < p) (q : ℤ) :
    linearSum x (.ofInt p) (.ofInt q) = linearTree x p q := by
  rw [linearSum, scale_ident x p positive, linearTree]
  generalize leadEq : (if p = 1 then Expr.ident x else .mul (.ofInt p) (.ident x)) = lead
  have settled : lead.differenceForm = lead := by
    rw [← leadEq]
    split <;> rfl
  have sign : lead.isNegative = false := by
    have notNegative : (Numeral.ofInt p).isNegative = false := by
      rw [← Bool.not_eq_true, Numeral.isNegative_ofInt]
      exact positive.not_gt
    rw [← leadEq]
    split
    · rfl
    · exact notNegative
  by_cases none : q = 0
  · rw [if_pos ((Numeral.isZero_ofInt q).mpr none), if_pos none]
    exact settled
  · rw [if_neg ((Numeral.isZero_ofInt q).not.mpr none), if_neg none,
      differenceForm_pair settled sign]
    simp only [Numeral.isNegative_ofInt, Numeral.neg_ofInt]
    rfl

theorem factorOfRoot_eq_linearTree (x : String) (r : ℚ) :
    factorOfRoot x r = linearTree x r.den (-r.num) :=
  linearSum_eq_linearTree x (Int.natCast_pos.mpr r.den_pos) (-r.num)

end SymbolicAlgebra
