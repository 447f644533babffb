import SymbolicAlgebra.Calculus.Methods
import SymbolicAlgebra.Proofs.DerivativeIdentifiers
import SymbolicAlgebra.Proofs.DifferentialTerms

/-! Integration by parts is right: with parts that are, the equation `∫ f = known + multiple * ∫ f`
holds for the derivation, and so does its solution. -/
namespace SymbolicAlgebra

/-- What integration by parts asks for: a simplifier, derivatives by the symbol, and antiderivatives
that may go so many levels deep. -/
structure PartsTools where
  simplify : Expr → Expr
  differentiate : Expr → Option Expr
  integrate : Nat → Expr → Option Expr

/-- The normal form, the derivative and an integral. -/
def integratorTools (integral : Nat → Integral) (x : String) : PartsTools where
  simplify := normalForm
  differentiate e := (derivative x e).toOption
  integrate n := (integral n).expr? x false

/-! ## The equation and the trees it is made of -/

deriving instance DecidableEq for PartsEquation

/-- An equation together with the known sides and the derivatives of all levels. -/
structure PartsRun extends PartsEquation where
  trees : List Expr
deriving DecidableEq

/-- `∫ u dv = boundary - ∫ residual`, and the derivative of `u`. -/
structure PartsStep where
  boundary : Expr
  residual : Expr
  slope : Expr

/-- The equation of the last level. -/
def PartsStep.last (step : PartsStep) (known multiple : Expr) : PartsRun :=
  ⟨⟨known, multiple⟩, [known, step.slope]⟩

/-- The equation in front of that for the leftover integrand without its free factors. -/
def PartsStep.before (step : PartsStep) (scale : Expr) (next : PartsRun) : PartsRun :=
  let known := Expr.sub step.boundary (scale.times next.known)
  ⟨⟨known, scale.negate.times next.multiple⟩, known :: step.slope :: next.trees⟩

section Tools

variable (S : PartsTools) (x : String)

/-- The free factor by which a leftover integrand is a multiple of the integrand. -/
def ratioToUsing? (residual integrand : Expr) : Option Expr :=
  let (k, rest) := residual.asMultiple
  let (j, other) := integrand.asMultiple
  if rest = other ∧ !j.isZero then some (.ofNumeral (k.div j))
  else
    let ratio := S.simplify (.div residual integrand)
    if !ratio.mentions x && !ratio.isNaN && !ratio.isZero then some ratio else none

def partsStep? (level : Nat) (e : Expr) : Option PartsStep := do
  let parts ← partsOf? x e
  let v ← S.integrate level parts.dv
  let du ← S.differentiate parts.u
  some ⟨.product [parts.u, v], S.simplify (.product [v, du]), du⟩

/-- Integrates by parts up to `budget` times over. -/
def partsRun (integrand : Expr) : Nat → Expr → Option PartsRun
  | 0, _ => none
  | budget + 1, e => do
    let step ← partsStep? S x budget e
    if step.residual.isZero then some (step.last step.boundary .zero)
    else
      match ratioToUsing? S x step.residual integrand with
      | some k => some (step.last step.boundary k.negate)
      | none =>
        match S.integrate budget step.residual with
        | some rest => some (step.last (.sub step.boundary rest) .zero)
        | none =>
          let (coefficient, rest) := step.residual.asMultiple
          let (free, inner) := freeAndBound x rest
          (partsRun integrand budget inner).map (step.before (.scale coefficient free))

/-- The equation for the integrand itself, solved for its integral. -/
def integrateByPartsUsing (budget : Nat) (e : Expr) : Option Expr :=
  (partsRun S x e budget e).bind fun run =>
    let multiple := S.simplify run.multiple
    if multiple.isZero then some run.known
    else
      let divisor := S.simplify (.sub .one multiple)
      if divisor.isZero || divisor.isNaN then none else some (.div run.known divisor)

end Tools

theorem ratioTo?_eq (integral : Nat → Integral) (x : String) :
    ratioTo? x = ratioToUsing? (integratorTools integral x) x := rfl

theorem partsEquation_eq (integral : Nat → Integral) (x : String) (integrand : Expr) (budget : Nat)
    (e : Expr) :
    partsEquation integral x integrand budget e =
      (partsRun (integratorTools integral x) x integrand budget e).map PartsRun.toPartsEquation := by
  induction budget generalizing e with
  | zero => rfl
  | succ budget ih =>
    simp only [partsEquation, partsRun, partsStep?, ratioTo?_eq integral, Option.bind_eq_bind,
      Option.bind_assoc, Option.bind_some, Option.map_bind, Function.comp_def, ih, integratorTools]
    refine Option.bind_congr fun parts _ => Option.bind_congr fun v _ => ?_
    refine Option.bind_congr fun du _ => ?_
    split
    · rfl
    · generalize ratioToUsing? _ x _ integrand = ratio
      generalize (integral budget).expr? x false _ = leftover
      cases ratio with
      | some k => rfl
      | none =>
        cases leftover with
        | some rest => rfl
        | none =>
          rw [Option.bind_map, Option.map_map, Option.map_eq_bind]
          rfl

theorem integrateByParts_eq (integral : Nat → Integral) (x : String) :
    integrateByParts integral x = integrateByPartsUsing (integratorTools integral x) x := by
  funext budget e
  rw [integrateByParts, integrateByPartsUsing, partsEquation_eq, Option.bind_map, integratorTools]
  -- The normal form itself is not to be looked at.
  generalize normalForm = simplify
  rfl

section Runs

variable {S : PartsTools} {x : String} {integrand e : Expr} {budget : Nat} {run : PartsRun}

/-- How a level ends: nothing is left, a multiple of the integrand is left, what is left has an
antiderivative, or it is integrated by parts in turn. -/
theorem partsRun_succ (found : partsRun S x integrand (budget + 1) e = some run) :
    ∃ step, partsStep? S x budget e = some step ∧
      ((step.residual.isZero ∧ run = step.last step.boundary .zero) ∨
        (∃ k, ratioToUsing? S x step.residual integrand = some k ∧
          run = step.last step.boundary k.negate) ∨
        (∃ rest, S.integrate budget step.residual = some rest ∧
          run = step.last (.sub step.boundary rest) .zero) ∨
        ∃ next, partsRun S x integrand budget (freeAndBound x step.residual.asMultiple.2).2 =
            some next ∧
          run = step.before (.scale step.residual.asMultiple.1
            (freeAndBound x step.residual.asMultiple.2).1) next) := by
  rw [partsRun] at found
  obtain ⟨step, taken, found⟩ := Option.bind_eq_some_iff.mp found
  refine ⟨step, taken, ?_⟩
  split at found
  · rename_i zero
    exact .inl ⟨zero, (Option.some.inj found).symm⟩
  · split at found
    · rename_i k ratio
      exact .inr (.inl ⟨k, ratio, (Option.some.inj found).symm⟩)
    · split at found
      · rename_i rest leftover
        exact .inr (.inr (.inl ⟨rest, leftover, (Option.some.inj found).symm⟩))
      · obtain ⟨next, again, same⟩ := Option.map_eq_some_iff.mp found
        exact .inr (.inr (.inr ⟨next, again, same.symm⟩))

/-! ## The multiple is free of the symbol -/

theorem free_ratioToUsing? {residual k : Expr}
    (found : ratioToUsing? S x residual integrand = some k) : k.mentions x = false := by
  unfold ratioToUsing? at found
  dsimp only at found
  split at found
  · cases found
    exact Expr.namesIn_others.mp (Expr.namesIn_ofNumeral _)
  · simp only [Option.ite_none_right_eq_some, Option.some.injEq, Bool.and_eq_true,
      Bool.not_eq_true'] at found
    obtain ⟨⟨⟨free, -⟩, -⟩, rfl⟩ := found
    exact free

theorem free_multiple (found : partsRun S x integrand budget e = some run) :
    run.multiple.mentions x = false := by
  induction budget generalizing e run with
  | zero => cases found
  | succ budget ih =>
    obtain ⟨step, -, ending⟩ := partsRun_succ found
    rcases ending with ⟨-, rfl⟩ | ⟨k, ratio, rfl⟩ | ⟨rest, -, rfl⟩ | ⟨next, again, rfl⟩
    · rfl
    · exact Expr.namesIn_others.mp (Expr.namesIn_others.mpr (free_ratioToUsing? ratio)).negate
    · rfl
    · have outside : (freeAndBound x step.residual.asMultiple.2).1.NamesIn {n | n ≠ x} :=
        namesIn_free fun name _ => Classical.em (name = x)
      exact Expr.namesIn_others.mp
        (outside.scale.negate.times (Expr.namesIn_others.mpr (ih again)))

end Runs

namespace DifferentialReading

variable {K : Type*} [Field K] {M : DifferentialReading K} {S : PartsTools} {x : String}
variable {integrand : Expr} {v w : K}

/-- Simplified trees have the same value, derivatives are derivatives and antiderivatives have their
integrands as derivatives. -/
structure Trusts (M : DifferentialReading K) (S : PartsTools) : Prop where
  simplify {e : Expr} {v : K} : M.value? e = some v → M.value? (S.simplify e) = some v
  differentiate {e d : Expr} : S.differentiate e = some d → M.Derives e d
  integrate {level : Nat} {e f : Expr} : S.integrate level e = some f → M.Derives f e

theorem value?_eraseIdx {ts : List Expr} {i : Nat} {u : Expr} (found : ts[i]? = some u)
    (h : M.value? (.node .multiply ts) = some v) :
    ∃ p q, M.value? u = some p ∧ M.value? (.node .multiply (ts.eraseIdx i)) = some q ∧
      p * q = v := by
  induction ts generalizing i v with
  | nil => cases found
  | cons t ts ih =>
    obtain ⟨a, ha, b, hb, rfl⟩ := value?_multiply_cons.mp h
    cases i with
    | zero =>
      cases found
      exact ⟨a, b, ha, hb, rfl⟩
    | succ i =>
      obtain ⟨p, q, hp, hq, rfl⟩ := ih found hb
      exact ⟨p, a * q, hp, value?_multiply_cons.mpr ⟨a, ha, q, hq, rfl⟩, mul_left_comm p a q⟩

/-- The parts multiply to what they are parts of. -/
theorem value?_parts {e : Expr} {parts : Parts} (found : partsOf? x e = some parts)
    (h : M.value? e = some v) :
    ∃ p q, M.value? parts.u = some p ∧ M.value? parts.dv = some q ∧ p * q = v := by
  have factors := (value?_factors e).trans h
  unfold partsOf? at found
  split at found
  · cases found
  · rename_i f single
    rw [single] at factors
    obtain ⟨p, hp, q, hq, rfl⟩ := value?_multiply_cons.mp factors
    obtain rfl := value?_multiply_nil.mp hq
    split at found
    · simp only [Option.ite_none_right_eq_some, Option.some.injEq] at found
      obtain ⟨-, rfl⟩ := found
      exact ⟨p, 1, hp, value?_one, rfl⟩
    · cases found
  · rename_i a b both
    rw [both] at factors
    obtain ⟨p, hp, _, hq, rfl⟩ := value?_multiply_cons.mp factors
    obtain ⟨q, hb, _, none, rfl⟩ := value?_multiply_cons.mp hq
    obtain rfl := value?_multiply_nil.mp none
    unfold orderParts? at found
    split at found
    · cases found
      split
      · exact ⟨q, p, hb, hp, by ring⟩
      · exact ⟨p, q, hp, hb, by ring⟩
    · cases found
  · split at found
    · obtain ⟨u, atIndex, rfl⟩ := Option.map_eq_some_iff.mp found
      obtain ⟨p, q, hp, hq, rfl⟩ := value?_eraseIdx atIndex factors
      exact ⟨p, q, hp, (value?_product_eq _).trans hq, rfl⟩
    · cases found

/-- A ratio is the quotient of the two integrands, whichever way it is found. -/
theorem value?_ratioToUsing? (exact : M.Exact) (trusts : M.Trusts S) {residual k : Expr}
    (found : ratioToUsing? S x residual integrand = some k) (hr : M.value? residual = some v)
    (hi : M.value? integrand = some w) (nonzero : w ≠ 0) : M.value? k = some (v / w) := by
  unfold ratioToUsing? at found
  obtain ⟨c, t, hc, ht, rfl⟩ := exact.value?_asMultiple hr
  obtain ⟨d, u, hd, hu, rfl⟩ := exact.value?_asMultiple hi
  obtain ⟨divisor, rest⟩ := mul_ne_zero_iff.mp nonzero
  dsimp only at found
  split at found
  · rename_i same
    cases found
    rw [same.1, hu, Option.some.injEq] at ht
    subst ht
    rw [value?_ofNumeral, mul_div_mul_right _ _ rest]
    exact exact.div hc hd divisor
  · simp only [Option.ite_none_right_eq_some, Option.some.injEq] at found
    obtain ⟨-, rfl⟩ := found
    exact trusts.simplify (value?_div.mpr ⟨_, hr, _, hi, nonzero, rfl⟩)

/-- `D (u v) = dv + v du` for parts of an expression. -/
theorem D_product_of_parts {e antiderivative du : Expr} {parts : Parts} {b d : K}
    (chosen : partsOf? x e = some parts) (he : M.value? e = some v)
    (hb : M.value? (.product [parts.u, antiderivative]) = some b) (hd : M.value? du = some d)
    (differentiated : M.Derives parts.u du) (integrated : M.Derives antiderivative parts.dv) :
    ∃ r, M.value? (.product [antiderivative, du]) = some r ∧ M.D b = v + r := by
  obtain ⟨p, q, hp, hq, rfl⟩ := value?_parts chosen he
  obtain ⟨p', hp', a, ha, rfl⟩ := value?_times.mp hb
  obtain rfl : p = p' := Option.some.inj (hp.symm.trans hp')
  have first : d = M.D p := differentiated p d hp hd
  have second : q = M.D a := integrated a q ha hq
  refine ⟨a * d, value?_times.mpr ⟨a, ha, d, hd, rfl⟩, ?_⟩
  rw [M.D.leibniz, smul_eq_mul, smul_eq_mul, first, second]

/-- One integration by parts: the derivative of the boundary is the integrand and what is left. -/
theorem D_boundary (trusts : M.Trusts S) {level : Nat} {e : Expr} {step : PartsStep} {b d : K}
    (found : partsStep? S x level e = some step) (he : M.value? e = some v)
    (hb : M.value? step.boundary = some b) (hd : M.value? step.slope = some d) :
    ∃ r, M.value? step.residual = some r ∧ M.D b = v + r := by
  simp only [partsStep?, Option.bind_eq_bind, Option.bind_eq_some_iff, Option.some.injEq] at found
  obtain ⟨parts, chosen, antiderivative, integrated, slope, differentiated, rfl⟩ := found
  obtain ⟨r, hr, derivative⟩ := D_product_of_parts chosen he hb hd
    (trusts.differentiate differentiated) (trusts.integrate integrated)
  exact ⟨r, trusts.simplify hr, derivative⟩

/-- What is left is a coefficient and its free factors times the inner integrand. -/
theorem value?_leftover (exact : M.Exact) (laws : M.Lawful x) {residual : Expr} {r : K}
    (hr : M.value? residual = some r) :
    ∃ a i, M.value? (.scale residual.asMultiple.1 (freeAndBound x residual.asMultiple.2).1) =
        some a ∧ M.D a = 0 ∧ M.value? (freeAndBound x residual.asMultiple.2).2 = some i ∧
      a * i = r := by
  obtain ⟨a, u, ha, hu, rfl⟩ := exact.value?_asMultiple hr
  obtain ⟨f, i, hf, hi, rfl⟩ := value?_freeAndBound hu
  have scale := exact.value?_scale ha hf
  have outside : Expr.NamesIn {n | n ≠ x}
      (.scale residual.asMultiple.1 (freeAndBound x residual.asMultiple.2).1) :=
    Expr.NamesIn.scale (namesIn_free fun name _ => Classical.em (name = x))
  exact ⟨a * f, i, scale, D_value_of_free laws (Expr.namesIn_others.mp outside) scale, hi,
    mul_assoc a f i⟩

/-- The equation that integration by parts arrives at holds for the derivation. -/
theorem D_known (exact : M.Exact) (trusts : M.Trusts S) (laws : M.Lawful x)
    (hi : M.value? integrand = some w) (nonzero : w ≠ 0) {budget : Nat} {e : Expr} {run : PartsRun}
    (found : partsRun S x integrand budget e = some run) (he : M.value? e = some v)
    (valued : ∀ t ∈ run.trees, (M.value? t).isSome) :
    ∃ k m, M.value? run.known = some k ∧ M.value? run.multiple = some m ∧ M.D k = v - m * w := by
  have reads := exact.readsNumerals
  induction budget generalizing e run v with
  | zero => cases found
  | succ budget ih =>
    obtain ⟨step, taken, ending⟩ := partsRun_succ found
    rcases ending with ⟨zero, rfl⟩ | ⟨k, ratio, rfl⟩ | ⟨rest, leftover, rfl⟩ | ⟨next, again, rfl⟩
    · simp only [PartsStep.last, List.forall_mem_cons, Option.isSome_iff_exists] at valued ⊢
      obtain ⟨⟨b, hb⟩, ⟨d, hd⟩, -⟩ := valued
      obtain ⟨r, hr, derivative⟩ := D_boundary trusts taken he hb hd
      refine ⟨b, 0, hb, value?_zero, ?_⟩
      rw [derivative, reads.value?_isZero zero hr]
      ring
    · simp only [PartsStep.last, List.forall_mem_cons, Option.isSome_iff_exists] at valued ⊢
      obtain ⟨⟨b, hb⟩, ⟨d, hd⟩, -⟩ := valued
      obtain ⟨r, hr, derivative⟩ := D_boundary trusts taken he hb hd
      have quotient := value?_ratioToUsing? exact trusts ratio hr hi nonzero
      refine ⟨b, -(r / w), hb, reads.value?_negate quotient, ?_⟩
      rw [derivative, neg_mul, div_mul_cancel₀ _ nonzero, sub_neg_eq_add]
    · simp only [PartsStep.last, List.forall_mem_cons, Option.isSome_iff_exists] at valued ⊢
      obtain ⟨⟨_, hk⟩, ⟨d, hd⟩, -⟩ := valued
      obtain ⟨b, hb, c, hc, rfl⟩ := value?_sub.mp hk
      obtain ⟨r, hr, derivative⟩ := D_boundary trusts taken he hb hd
      have lower : r = M.D c := trusts.integrate leftover c r hc hr
      refine ⟨b - c, 0, hk, value?_zero, ?_⟩
      rw [map_sub, derivative, lower]
      ring
    · simp only [PartsStep.before, List.forall_mem_cons, Option.isSome_iff_exists] at valued ⊢
      obtain ⟨⟨k, hk⟩, ⟨d, hd⟩, below⟩ := valued
      obtain ⟨b, hb, c, hc, rfl⟩ := value?_sub.mp hk
      obtain ⟨r, hr, derivative⟩ := D_boundary trusts taken he hb hd
      obtain ⟨a, i, scale, constant, hinner, rfl⟩ := value?_leftover exact laws hr
      obtain ⟨k', m, hk', hm, equation⟩ := ih again hinner fun t member =>
        Option.isSome_iff_exists.mpr (below t member)
      obtain rfl : a * k' = c := Option.some.inj ((reads.value?_mul scale hk').symm.trans hc)
      refine ⟨b - a * k', -a * m, hk, reads.value?_mul (reads.value?_negate scale) hm, ?_⟩
      rw [map_sub, derivative, M.D.leibniz, constant, equation, smul_eq_mul, smul_eq_mul]
      ring

theorem D_solved {k m : K} (constant : M.D m = 0) (equation : M.D k = w - m * w)
    (solvable : 1 - m ≠ 0) : M.D (k / (1 - m)) = w := by
  have divisor : M.D (1 - m) = 0 := by rw [map_sub, M.D.map_one_eq_zero, constant, sub_zero]
  rw [M.D.leibniz_div_const k _ divisor, equation, smul_eq_mul, ← one_sub_mul,
    inv_mul_cancel_left₀ solvable]

/-- The solution of the equation, unless the multiple is one. -/
theorem D_solution (exact : M.Exact) (trusts : M.Trusts S) (laws : M.Lawful x)
    (hi : M.value? integrand = some w) (nonzero : w ≠ 0) {budget : Nat} {f : Expr}
    (found : integrateByPartsUsing S x budget integrand = some f) :
    ∃ run, partsRun S x integrand budget integrand = some run ∧
      ((∀ t ∈ run.trees, (M.value? t).isSome) →
        (∀ m, M.value? run.multiple = some m → 1 - m ≠ 0) →
          ∃ v, M.value? f = some v ∧ M.D v = w) := by
  obtain ⟨run, again, solved⟩ := Option.bind_eq_some_iff.mp found
  refine ⟨run, again, fun valued solvable => ?_⟩
  obtain ⟨k, m, hk, hm, equation⟩ := D_known exact trusts laws hi nonzero again hi valued
  have simplified := trusts.simplify hm
  dsimp only at solved
  split at solved
  · rename_i zero
    cases solved
    rw [exact.readsNumerals.value?_isZero zero simplified, zero_mul, sub_zero] at equation
    exact ⟨k, hk, equation⟩
  · simp only [Option.ite_none_left_eq_some, Option.some.injEq] at solved
    obtain ⟨-, rfl⟩ := solved
    have divisor := trusts.simplify (value?_sub.mpr ⟨1, value?_one, m, simplified, rfl⟩)
    have constant := D_value_of_free laws (free_multiple again) hm
    exact ⟨k / (1 - m), value?_div.mpr ⟨k, hk, 1 - m, divisor, solvable m hm, rfl⟩,
      D_solved constant equation (solvable m hm)⟩

theorem D_third_of_cube [CharZero K] (slope : M.D v = 1) : M.D (v ^ 3 / 3) = v * v := by
  have constant : M.D (3 : K) = 0 := by exact_mod_cast M.D.map_natCast 3
  rw [M.D.leibniz_div_const _ _ constant, D_pow, slope, smul_eq_mul]
  norm_num
  ring

end DifferentialReading

/-- Integration by parts is right with any tools that are. Its multiple is free of the symbol, and
wherever the integrand and all trees of a run have values, and that of the integrand is not zero, the
known side is an antiderivative of `e - multiple * integrand`. Unless the multiple is one, the
solution is an antiderivative of the integrand. The integrator runs it with its own tools. -/
theorem parts_equation_value {S : PartsTools} {x : String} :
    (∀ integral, integrateByParts integral x = integrateByPartsUsing (integratorTools integral x) x) ∧
    (∀ integral integrand budget e, partsEquation integral x integrand budget e =
      (partsRun (integratorTools integral x) x integrand budget e).map PartsRun.toPartsEquation) ∧
    (∀ {integrand e : Expr} {budget : Nat} {run : PartsRun},
      partsRun S x integrand budget e = some run → run.multiple.mentions x = false) ∧
    ∀ {K : Type*} [Field K] {M : DifferentialReading K}, M.Exact → M.Trusts S → M.Lawful x →
      ∀ {integrand : Expr} {w : K}, M.value? integrand = some w → w ≠ 0 →
        (∀ {e : Expr} {v : K} {budget : Nat} {run : PartsRun},
          partsRun S x integrand budget e = some run → M.value? e = some v →
            (∀ t ∈ run.trees, (M.value? t).isSome) →
              ∃ k m, M.value? run.known = some k ∧ M.value? run.multiple = some m ∧
                M.D k = v - m * w) ∧
        ∀ {budget : Nat} {f : Expr}, integrateByPartsUsing S x budget integrand = some f →
          ∃ run, partsRun S x integrand budget integrand = some run ∧
            ((∀ t ∈ run.trees, (M.value? t).isSome) →
              (∀ m, M.value? run.multiple = some m → 1 - m ≠ 0) →
                ∃ v, M.value? f = some v ∧ M.D v = w) := by
  refine ⟨fun integral => integrateByParts_eq integral x,
    fun integral integrand => partsEquation_eq integral x integrand, free_multiple, ?_⟩
  intro K _ M exact trusts laws integrand w hi nonzero
  exact ⟨DifferentialReading.D_known exact trusts laws hi nonzero,
    DifferentialReading.D_solution exact trusts laws hi nonzero⟩

open DifferentialReading in
/-- Parts twice over: `x * x * x` leaves `x * x ^ 2 / 3`, and that leaves a third of the integrand, so
that the multiple is `(-1 / 3) * (-1 / 3)`. -/
theorem parts_equation_value_of_cube :
    let M := RationalFunction.reading (FractionRing (MvPolynomial String ℤ)) "x"
    let x : Expr := .ident "x"
    let cube : Expr := .product [x, x, x]
    let third (e : Expr) : Expr := .div e (.ofInt 3)
    let S : PartsTools := {
      simplify := fun e =>
        if e = .product [third (.pow x (.ofInt 3)), .one] then
          .product [.number (.exact (1 / 3)), x, .pow x (.ofInt 2)]
        else if e = .product [third cube, .one] then .product [.number (.exact (1 / 3)), x, x, x]
        else e
      differentiate := fun e => if e = x then some .one else none
      integrate := fun _ e =>
        if e = .product [x, x] then some (third (.pow x (.ofInt 3)))
        else if e = .pow x (.ofInt 2) then some (third cube) else none }
    M.Exact ∧ M.Trusts S ∧ M.Lawful "x" ∧ ∃ run w,
      M.value? cube = some w ∧ w ≠ 0 ∧ partsRun S "x" cube 2 cube = some run ∧
        run.multiple = .product [third (.ofInt (-1)), third (.ofInt (-1))] ∧
        run.multiple.mentions "x" = false ∧ (∀ t ∈ run.trees, (M.value? t).isSome) ∧
        (∃ k m, M.value? run.known = some k ∧ M.value? run.multiple = some m ∧
          M.D k = w - m * w) ∧
        ∃ f v, integrateByPartsUsing S "x" 2 cube = some f ∧ M.value? f = some v ∧ M.D v = w := by
  intro M x cube third S
  let X := RationalFunction.variableNamed (FractionRing (MvPolynomial String ℤ)) "x"
  have := RationalFunction.charZero (FractionRing (MvPolynomial String ℤ))
  have hX : X ≠ 0 := RationalFunction.variableNamed_ne_zero _ "x"
  have exact : M.Exact := fun _ => rfl
  have laws : M.Lawful "x" := RationalFunction.reading_lawful _ "x"
  have power (n : ℕ) (b : FractionRing (MvPolynomial String ℤ)) : M.power? b n = some (b ^ n) :=
    naturalPower?_eq_some.mpr ⟨n, rfl, rfl⟩
  have hx : M.value? x = some X := value?_ident "x"
  have hsquare : M.value? (.pow x (.ofInt 2)) = some (X ^ 2) :=
    value?_pow.mpr ⟨X, hx, 2, value?_ofInt 2, power 2 X⟩
  have hpower : M.value? (.pow x (.ofInt 3)) = some (X ^ 3) :=
    value?_pow.mpr ⟨X, hx, 3, value?_ofInt 3, power 3 X⟩
  have hcube : M.value? cube = some (X * (X * X)) :=
    value?_times_times.mpr ⟨X, hx, X, hx, X, hx, rfl⟩
  have hthird {e : Expr} {v} (h : M.value? e = some v) : M.value? (third e) = some (v / 3) :=
    value?_div.mpr ⟨v, h, 3, value?_ofInt 3, three_ne_zero, rfl⟩
  have fraction : M.value? (.number (.exact (1 / 3))) = some (1 / 3) := by
    rw [value?_number, numeral?_exact]
    norm_num
  have antiderivative : M.D (X ^ 3 / 3) = X * X := D_third_of_cube laws.ident_self
  have simplify {e : Expr} {v} (h : M.value? e = some v) : M.value? (S.simplify e) = some v := by
    simp only [S]
    split
    case isTrue same =>
      obtain ⟨_, hv, _, one, rfl⟩ := value?_times.mp (same ▸ h)
      obtain rfl := Option.some.inj ((hthird hpower).symm.trans hv)
      obtain rfl := Option.some.inj (value?_one.symm.trans one)
      exact value?_times_times.mpr ⟨_, fraction, _, hx, _, hsquare, by ring⟩
    split
    case isTrue same =>
      obtain ⟨_, hv, _, one, rfl⟩ := value?_times.mp (same ▸ h)
      obtain rfl := Option.some.inj ((hthird hcube).symm.trans hv)
      obtain rfl := Option.some.inj (value?_one.symm.trans one)
      exact (value?_product_eq _).trans
        (value?_multiply_cons.mpr ⟨_, fraction, _, (value?_product_eq _).symm.trans hcube, by ring⟩)
    exact h
  have integrate {level : Nat} {e f : Expr} (found : S.integrate level e = some f) :
      M.Derives f e := by
    simp only [S] at found
    intro v w hv hw
    split at found
    case isTrue same =>
      subst same
      cases found
      obtain rfl := Option.some.inj ((hthird hpower).symm.trans hv)
      obtain ⟨_, hp, _, hq, rfl⟩ := value?_times.mp hw
      obtain rfl := Option.some.inj (hx.symm.trans hp)
      obtain rfl := Option.some.inj (hx.symm.trans hq)
      exact antiderivative.symm
    simp only [Option.ite_none_right_eq_some, Option.some.injEq] at found
    obtain ⟨rfl, rfl⟩ := found
    obtain rfl := Option.some.inj ((hthird hcube).symm.trans hv)
    obtain rfl := Option.some.inj (hsquare.symm.trans hw)
    rw [show X * (X * X) = X ^ 3 by ring, antiderivative, sq]
  have trusts : M.Trusts S := by
    refine ⟨simplify, fun {e d} found => ?_, integrate⟩
    simp only [S, Option.ite_none_right_eq_some, Option.some.injEq] at found
    obtain ⟨rfl, rfl⟩ := found
    exact (derives_rules laws).symbol
  let inner : Expr := .product [x, third cube]
  let known : Expr :=
    .sub (.product [x, third (.pow x (.ofInt 3))]) (.product [third .one, x, third cube])
  let multiple : Expr := .product [third (.ofInt (-1)), third (.ofInt (-1))]
  have found : partsRun S "x" cube 2 cube = some ⟨⟨known, multiple⟩, [known, .one, inner, .one]⟩ := by
    decide +kernel
  have solved : integrateByPartsUsing S "x" 2 cube = some (.div known (.sub .one multiple)) := by
    decide +kernel
  have hinner : M.value? inner = some (X * (X * (X * X) / 3)) :=
    value?_times.mpr ⟨_, hx, _, hthird hcube, rfl⟩
  have hknown : M.value? known = some (X * (X ^ 3 / 3) - 1 / 3 * (X * (X * (X * X) / 3))) :=
    value?_sub.mpr ⟨_, value?_times.mpr ⟨_, hx, _, hthird hpower, rfl⟩, _,
      value?_times_times.mpr ⟨_, hthird value?_one, _, hx, _, hthird hcube, rfl⟩, rfl⟩
  have valued : ∀ t ∈ [known, .one, inner, .one], (M.value? t).isSome := by
    simp [hknown, hinner]
  have minus : M.value? (third (.ofInt (-1))) = some (-1 / 3) := hthird (by simp)
  have hmultiple : M.value? multiple = some (-1 / 3 * (-1 / 3)) :=
    value?_times.mpr ⟨_, minus, _, minus, rfl⟩
  have solvable (m) (hm : M.value? multiple = some m) : 1 - m ≠ 0 := by
    obtain rfl := Option.some.inj (hmultiple.symm.trans hm)
    norm_num
  have nonzero : X * (X * X) ≠ 0 := mul_ne_zero hX (mul_ne_zero hX hX)
  obtain ⟨-, -, free, holds⟩ := parts_equation_value (S := S) (x := "x")
  obtain ⟨equation, solution⟩ := holds exact trusts laws hcube nonzero
  obtain ⟨_, again, solution⟩ := solution solved
  obtain rfl := Option.some.inj (found.symm.trans again)
  obtain ⟨v, hv, derivative⟩ := solution valued solvable
  exact ⟨exact, trusts, laws, _, _, hcube, nonzero, found, rfl, free found, valued,
    equation found hcube valued, _, v, solved, hv, derivative⟩

end SymbolicAlgebra
