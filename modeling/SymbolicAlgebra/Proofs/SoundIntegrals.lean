import SymbolicAlgebra.Proofs.FullDistribution
import SymbolicAlgebra.Proofs.IntegralValues
import SymbolicAlgebra.Proofs.RationalFunctions
import SymbolicAlgebra.Proofs.StructuralRewrites

/-! Antiderivatives are antiderivatives, as far as the simplifications on the way to them keep values:
where the search comes to the same answer by tools that do. Such tools are the integrator's own where
their factoring is sound. -/
namespace SymbolicAlgebra

universe u

/-- The integrator's tools where they are sound; elsewhere nothing is changed, and nothing is read that
does not stay in words. -/
def soundTools : IntegrationTools where
  simplify := soundForm
  multiplyOut := distributeFully
  pullFactor e :=
    let sums := (toSums e).expr
    if Visits factorSharedNode PullsOnce sums then factorShared sums else .same sums
  reads := Polynomial.readInWords soundForm

theorem soundForm_addsNoNames : AddsNoNames soundForm := fun S e h => by
  unfold soundForm
  split
  · exact namesIn_normalForm h
  · exact h

namespace DifferentialReading

variable {K : Type*} [Field K] {x : String}

/-! ## Readings with integers for exponents -/

open Classical in
/-- A reading of expressions in a field with a derivation on it. -/
noncomputable def ofReading (D : Derivation ℤ K K) (R : Reading K) : DifferentialReading K where
  D := D
  ident := R.ident
  float? _ := none
  unit? := R.unit?
  call? := R.call
  power? b c := if R.Applies .power [b, c] then some (Reading.power b c) else none
  integral? := R.integral

variable {D : Derivation ℤ K K} {R : Reading K}

theorem ofReading_power?_eq_some [CharZero K] {b c v : K} :
    (ofReading D R).power? b c = some v ↔ ∃ n : ℤ, (n : K) = c ∧ (b = 0 → 0 ≤ n) ∧ b ^ n = v := by
  simp only [ofReading, Option.ite_none_right_eq_some, Option.some.injEq]
  constructor
  · rintro ⟨⟨n, rfl, defined⟩, rfl⟩
    exact ⟨n, rfl, defined, (Reading.power_intCast b n).symm⟩
  · rintro ⟨n, rfl, defined, rfl⟩
    exact ⟨⟨n, rfl, defined⟩, Reading.power_intCast b n⟩

theorem numeral?_ofReading [CharZero K] {n : Numeral} {v : K} :
    (ofReading D R).numeral? n = some v ↔ n.isExact ∧ n.val K = v := by
  cases n with
  | exact r =>
    rw [numeral?_exact]
    simp [Numeral.isExact, Numeral.val]
  | float f => simp [numeral?, ofReading, Numeral.isExact]
  | nan => simp [numeral?, Numeral.isExact]

theorem operate?_ofReading [CharZero K] {op : Operator} {vs : List K} {v : K} :
    (ofReading D R).operate? op vs = some v ↔ R.Applies op vs ∧ R.operate op vs = v := by
  have integral (op : Operator) : R.integral op vs = some v ↔
      (R.integral op vs).isSome ∧ (R.integral op vs).getD 0 = v := by
    cases R.integral op vs <;> simp
  cases op
  case add => simp [operate?, Reading.Applies, Reading.operate]
  case multiply => simp [operate?, Reading.Applies, Reading.operate]
  case subtract =>
    rcases vs with _ | ⟨a, _ | ⟨b, _ | _⟩⟩ <;> simp [operate?, Reading.Applies, Reading.operate]
  case divide =>
    rcases vs with _ | ⟨a, _ | ⟨b, _ | _⟩⟩ <;> simp [operate?, Reading.Applies, Reading.operate]
  case power =>
    rcases vs with _ | ⟨a, _ | ⟨b, _ | _⟩⟩
    case cons.cons.nil => simp [operate?, ofReading, Reading.operate]
    all_goals simp [operate?, Reading.Applies]
  all_goals exact integral _

theorem values?_ofReading {ts : List Expr} {us : List K}
    (each : ∀ t ∈ ts, ∀ {v}, (ofReading D R).value? t = some v ↔ R.Defined t ∧ R.val t = v) :
    (ofReading D R).values? ts = some us ↔ (∀ t ∈ ts, R.Defined t) ∧ ts.map R.val = us := by
  induction ts generalizing us with
  | nil => simp
  | cons t ts ih =>
    obtain ⟨here, there⟩ := List.forall_mem_cons.mp each
    simp only [values?_cons, here, ih there, List.forall_mem_cons, List.map_cons]
    constructor
    · rintro ⟨_, ⟨first, rfl⟩, _, ⟨rest, rfl⟩, rfl⟩
      exact ⟨⟨first, rest⟩, rfl⟩
    · rintro ⟨⟨first, rest⟩, rfl⟩
      exact ⟨_, ⟨first, rfl⟩, _, ⟨rest, rfl⟩, rfl⟩

/-- Values are those of the reading, where that has one. -/
theorem value?_ofReading [CharZero K] {e : Expr} {v : K} :
    (ofReading D R).value? e = some v ↔ R.Defined e ∧ R.val e = v := by
  induction e generalizing v with
  | number n =>
    rw [value?_number]
    exact numeral?_ofReading
  | complex z =>
    rw [Reading.defined_complex, Reading.val_complex, value?]
    simp only [Option.bind_eq_bind, Option.bind_eq_some_iff, Option.pure_def, Option.some.injEq,
      numeral?_ofReading]
    constructor
    · rintro ⟨unit, known, _, ⟨re, rfl⟩, _, ⟨im, rfl⟩, rfl⟩
      replace known : R.unit? = some unit := known
      rw [known]
      exact ⟨⟨rfl, re, im⟩, rfl⟩
    · rintro ⟨⟨known, re, im⟩, rfl⟩
      obtain ⟨unit, known⟩ := Option.isSome_iff_exists.mp known
      exact ⟨unit, known, _, ⟨re, rfl⟩, _, ⟨im, rfl⟩, by rw [known]; rfl⟩
  | ident name => simp [ofReading]
  | call f ts ih =>
    rw [value?_call, Reading.defined_call, Reading.val_call]
    simp only [values?_ofReading fun t member _ => ih t member]
    constructor
    · rintro ⟨_, ⟨defined, rfl⟩, call⟩
      replace call : R.call f (ts.map R.val) = some v := call
      rw [call]
      exact ⟨⟨defined, rfl⟩, rfl⟩
    · rintro ⟨⟨defined, call⟩, rfl⟩
      obtain ⟨v, call⟩ := Option.isSome_iff_exists.mp call
      exact ⟨_, ⟨defined, rfl⟩, by rw [call]; exact call⟩
  | node op ts ih =>
    rw [value?_node, Reading.defined_node, Reading.val_node]
    simp only [values?_ofReading fun t member _ => ih t member, operate?_ofReading]
    constructor
    · rintro ⟨_, ⟨defined, rfl⟩, applies, rfl⟩
      exact ⟨⟨defined, applies⟩, rfl⟩
    · rintro ⟨⟨defined, applies⟩, rfl⟩
      exact ⟨_, ⟨defined, rfl⟩, applies, rfl⟩

theorem KeepsValues.ofKeeps [CharZero K] {rule : Expr → Expr} (keeps : ∀ e, R.Keeps e (rule e)) :
    (ofReading D R).KeepsValues rule := by
  intro e v h
  rw [value?_ofReading] at h ⊢
  obtain ⟨defined, rfl⟩ := h
  exact keeps e defined

theorem D_zpow (b : K) (n : ℤ) : D (b ^ n) = n * b ^ (n - 1) * D b := by
  rw [D.leibniz_zpow, zsmul_eq_mul, smul_eq_mul, mul_assoc]

theorem ratioLaws_ofAssignment {ident : String → K} {family : Ratio → NamedFunction} {s : K} :
    (ofReading D (.ofAssignment ident)).RatioLaws family s where
  ratios h := by cases h
  unit h := by cases h .sin
  add h _ := by cases h .sin
  neg h := by cases h .sin

/-- The rules of calculus for arithmetic alone. What is said of calls is said of none. -/
theorem elementary_ofAssignment [CharZero K] {ident : String → K} (self : D (ident x) = 1)
    (other : ∀ name, name ≠ x → D (ident name) = 0) :
    (ofReading D (.ofAssignment ident)).Elementary x where
  ident_self := self
  ident_other := other
  float_constant h := by cases h
  float_sub_one h := by cases h
  unit_constant h := by cases h
  call_constant _ h := by cases h
  power_constant {b c v} hb _ h := by
    obtain ⟨n, rfl, -, rfl⟩ := ofReading_power?_eq_some.mp h
    exact (D_zpow b n).trans (mul_eq_zero_of_right _ hb)
  integral_constant _ h := by cases h
  call_chain h := by cases h
  log_ten h := by cases h
  log_base h := by cases h
  power_natural {b v n} _ h := by
    obtain ⟨m, same, -, rfl⟩ := ofReading_power?_eq_some.mp h
    obtain rfl : m = n := by exact_mod_cast same
    exact zpow_natCast b n
  power_rule {b c v l} _ h lowered := by
    obtain ⟨n, rfl, -, rfl⟩ := ofReading_power?_eq_some.mp h
    obtain ⟨m, same, -, rfl⟩ := ofReading_power?_eq_some.mp lowered
    obtain rfl : m = n - 1 := by exact_mod_cast same
    exact D_zpow b n
  exponential_rule _ _ h := by cases h
  euler_rule {c v} distinct h := by
    obtain ⟨n, rfl, -, rfl⟩ := ofReading_power?_eq_some.mp h
    have base : D (ident "e") = 0 := other "e" distinct.symm
    have power : D (ident "e" ^ n) = 0 := (D_zpow _ n).trans (mul_eq_zero_of_right _ base)
    exact power.trans (mul_eq_zero_of_right _ (D.map_intCast n)).symm
  general_power_rule _ _ h := by cases h
  exact _ := rfl
  natural_power b n :=
    ofReading_power?_eq_some.mpr ⟨n, by norm_cast, fun _ => Int.natCast_nonneg n, zpow_natCast b n⟩
  opposite_power {b c v} h nonzero := by
    obtain ⟨n, rfl, -, rfl⟩ := ofReading_power?_eq_some.mp h
    refine ofReading_power?_eq_some.mpr ⟨-n, by push_cast; rfl, fun zero => ?_, zpow_neg b n⟩
    rcases eq_or_ne n 0 with rfl | exponent
    · exact le_rfl
    · exact absurd (by rw [zero, zero_zpow n exponent]) nonzero
  power_of_zero {c v} exponent h := by
    obtain ⟨n, rfl, -, rfl⟩ := ofReading_power?_eq_some.mp h
    exact zero_zpow n (by exact_mod_cast exponent)
  circular := ratioLaws_ofAssignment
  hyperbolic := ratioLaws_ofAssignment
  ln_ne_zero h := by cases h
  abs h := by cases h
  sqrt h := by cases h

/-- The sound tools keep values wherever the laws of the normal form hold. -/
theorem keptBy_soundTools [CharZero K]
    (laws : ∀ ident : String → K, (x ≠ "e" → ident "e" = R.ident "e") →
      Reading.Lawful { R with ident }) : (ofReading D R).KeptBy soundTools x where
  names := soundForm_addsNoNames
  reads h := h
  simplify same := KeepsValues.ofKeeps (Reading.soundForm_keeps (laws _ same))
  multiplyOut same := KeepsValues.ofKeeps (Reading.distributeFully_keeps (laws _ same).only.splices)
  pullFactor {ident} _ := KeepsValues.ofKeeps (D := D) (R := { R with ident }) fun e => by
    refine (Reading.toSums_keeps e).trans ?_
    dsimp only [soundTools]
    split
    · rename_i once
      exact Reading.factorShared_keeps once
    · exact Reading.Keeps.refl _

end DifferentialReading

open DifferentialReading

/-- Every run that simplifies something for the antiderivative is sound, and what is read as a
polynomial is read in words. -/
def IntegratesOnce (options : IntegrationOptions) (x : String) (e : Expr) : Prop :=
  integratorOwn.antiderivativeRun options x e = soundTools.antiderivativeRun options x e

/-- An antiderivative is one wherever the simplifications on the way to it keep values, and the trees
that it rests on have some: by the rules of calculus, in any field with a derivation, with any tools
that lead to the same run. The sound tools are such tools wherever the laws of the normal form hold,
so that the derivative of the value of the antiderivative is the value of the integrand. -/
theorem antiderivative?_derives {options : IntegrationOptions} {x : String} {e F : Expr}
    {strategy : Strategy} (found : antiderivative? options x e = some (F, strategy)) :
    ∃ run, integratorOwn.antiderivativeRun options x e = some (run, strategy) ∧ run.result = F ∧
      (∀ T : IntegrationTools, T.antiderivativeRun options x e = some (run, strategy) →
        ∀ {K : Type u} [Field K] [CharZero K] {M : DifferentialReading K}, M.Elementary x →
          M.KeptBy T x → M.Valued run.trees → M.Derives F e) ∧
      (IntegratesOnce options x e →
        ∀ {K : Type u} [Field K] [CharZero K] {D : Derivation ℤ K K} {R : Reading K},
          (∀ ident : String → K, (x ≠ "e" → ident "e" = R.ident "e") →
            Reading.Lawful { R with ident }) → (ofReading D R).Elementary x →
          (∀ t ∈ run.trees, R.Defined t) → R.Defined F → R.Defined e → D (R.val F) = R.val e) := by
  rw [antiderivative?_eq] at found
  obtain ⟨⟨run, _⟩, answer, same⟩ := Option.map_eq_some_iff.mp found
  cases same
  refine ⟨run, answer, rfl, fun T again K _ _ M laws kept valued => ?_, ?_⟩
  · exact IntegrationTools.right_antiderivative again M laws kept valued
  · intro once K _ _ D R laws elementary valued hF he
    rw [IntegratesOnce, answer] at once
    have value {t : Expr} (defined : R.Defined t) : (ofReading D R).value? t = some (R.val t) :=
      value?_ofReading.mpr ⟨defined, rfl⟩
    have derives := IntegrationTools.right_antiderivative once.symm (ofReading D R) elementary
      (keptBy_soundTools laws) fun t member => by rw [value (valued t member)]; rfl
    exact (derives _ _ (value hF) (value he)).symm

theorem integratorOwn_eq : integratorOwn =
    { simplify := fun e => (normalizeByInsertion closedByInsertion {} e).expr
      multiplyOut := distributeFully
      pullFactor := fun e => factorShared (toSums e).expr
      reads := fun _ _ => true } := by
  rw [integratorOwn, normalForm_eq]

/-- It is not zero, since its derivative is not. -/
theorem twice_plus_one_ne_zero {K : Type*} [Field K] [CharZero K] {M : DifferentialReading K} {v : K}
    (slope : M.D v = 1) : 2 * v + 1 ≠ 0 := by
  intro zero
  have constant : M.D (2 : K) = 0 := by exact_mod_cast M.D.map_natCast 2
  have twice : M.D (2 * v + 1) = 2 := by
    rw [map_add, M.D.leibniz, constant, slope, M.D.map_one_eq_zero]
    simp
  rw [zero, map_zero] at twice
  exact two_ne_zero twice.symm

/-- With `u` for `2 * x + 1`, the integrand `y / (2 * x + 1) ^ 2` is `y / 2` times `1 / u ^ 2`. -/
theorem antiderivative?_derives_of_quotient :
    let x : Expr := .ident "x"
    let y : Expr := .ident "y"
    let base : Expr := .add (.mul (.ofInt 2) x) .one
    let e : Expr := .div y (.pow base (.ofInt 2))
    let F : Expr := .div (.mul (.ofInt (-1)) y) (.add (.mul (.ofInt 4) x) (.ofInt 2))
    let K := FractionRing (MvPolynomial String ℤ)
    let R : Reading K := .ofAssignment (RationalFunction.variableNamed K)
    let M := ofReading (RationalFunction.partialDerivative K "x") R
    antiderivative? {} "x" e = some (F, .constantMultiple) ∧ IntegratesOnce {} "x" e ∧
      M.Elementary "x" ∧ M.KeptBy soundTools "x" ∧ M.Derives F e ∧
      ∃ run, integratorOwn.antiderivativeRun {} "x" e = some (run, .constantMultiple) ∧
        (∀ t ∈ run.trees, R.Defined t) ∧ R.Defined F ∧ R.Defined e ∧
        RationalFunction.partialDerivative K "x" (R.val F) = R.val e := by
  intro x y base e F K R M
  have := RationalFunction.charZero K
  let inner : Expr := .div (.pow base (.ofInt (-1))) (.ofInt (-1))
  let half : Expr := .div .one (.ofInt 2)
  let slope : Expr := .sum [.sum [.product [.zero, x], .product [.ofInt 2, .one]], .zero]
  let run : IntegralRun :=
    ⟨F, [.product [y, half, inner], .product [half, inner], base, slope.reciprocal, inner]⟩
  have own : integratorOwn.antiderivativeRun {} "x" e = some (run, .constantMultiple) := by
    rw [integratorOwn_eq]
    decide +kernel
  have sound : soundTools.antiderivativeRun {} "x" e = some (run, .constantMultiple) := by
    rw [soundTools, soundForm_eq]
    decide +kernel
  have found : antiderivative? {} "x" e = some (F, .constantMultiple) := by
    rw [antiderivative?_eq, own]
    rfl
  have once : IntegratesOnce {} "x" e := own.trans sound.symm
  have elementary : M.Elementary "x" :=
    elementary_ofAssignment (by simp [RationalFunction.partialDerivative_variableNamed])
      fun name other => by simp [RationalFunction.partialDerivative_variableNamed, other]
  have laws (ident : String → K) : Reading.Lawful { R with ident } :=
    Reading.ofAssignment_lawful ident
  have value : R.val base = 2 * R.ident "x" + 1 := by simp [base, x]
  have nonzero : R.val base ≠ 0 := value ▸ twice_plus_one_ne_zero elementary.ident_self
  have integer (n : ℤ) (exponent : Expr) (same : exponent = .ofInt n) :
      R.Defined (.pow base exponent) := by
    rw [same, Reading.defined_pow]
    exact ⟨by simp [base, x], Reading.defined_ofInt n, n, by simp, fun zero => absurd zero nonzero⟩
  have hinner : R.Defined inner := by
    simp [inner, integer (-1)]
  have defined : ∀ t ∈ run.trees, R.Defined t := by
    simp [run, hinner, half, base, slope, x, y, Expr.reciprocal]
  have hF : R.Defined F := by
    have divisor : (4 : K) * R.ident "x" + 2 = 2 * R.val base := by rw [value]; ring
    simp [F, x, y, divisor, nonzero]
  have he : R.Defined e := by
    have power : R.val (.pow base (.ofInt 2)) ≠ 0 := by
      rw [Reading.val_pow, Reading.val_ofInt, Reading.power_intCast]
      exact zpow_ne_zero 2 nonzero
    rw [Reading.defined_div]
    exact ⟨trivial, integer 2 _ rfl, power⟩
  have kept : M.KeptBy soundTools "x" := keptBy_soundTools fun ident _ => laws ident
  have valued : M.Valued run.trees := fun t member =>
    Option.isSome_iff_exists.mpr ⟨_, value?_ofReading.mpr ⟨defined t member, rfl⟩⟩
  obtain ⟨_, answer, -, derives, derivative⟩ := antiderivative?_derives found
  cases Option.some.inj (own.symm.trans answer)
  exact ⟨found, once, elementary, kept, derives soundTools sound elementary kept valued, run, own,
    defined, hF, he, derivative once (fun ident _ => laws ident) elementary defined hF he⟩

end SymbolicAlgebra
