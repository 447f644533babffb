import SymbolicAlgebra.Proofs.CallSlopes
import SymbolicAlgebra.Proofs.TabledIntegrals

/-! The table of antiderivatives in a field with a derivation, with any simplifier that keeps values:
wherever an entry and its integrand have values, the integrand is the derivative. -/
namespace SymbolicAlgebra

namespace DifferentialReading

variable {K : Type*} [Field K] {M : DifferentialReading K} {x : String} {F : Expr}
  {simplify : Expr → Expr} (laws : M.Elementary x) (keeps : M.KeepsValues simplify)
include laws keeps

/-! ## Powers, exponentials and reciprocals -/

theorem derives_variablePower {exponent : Expr} (free : exponent.mentions x = false) :
    M.Derives (Expr.integralOfVariablePowerUsing simplify (.ident x) exponent)
      (.pow (.ident x) exponent) := by
  intro v w hv hw
  obtain ⟨u, hu, c, hc, hw⟩ := value?_pow.mp hw
  obtain rfl : M.ident x = u := by simpa using hu
  unfold Expr.integralOfVariablePowerUsing at hv
  split at hv
  · rename_i minus
    subst minus
    obtain rfl : ((-1 : ℤ) : K) = c := by simpa using hc
    obtain ⟨z, hz, nonzero, logarithm⟩ := D_logOfAbs laws hv
    obtain rfl : M.ident x = z := by simpa using hz
    have inverse := laws.opposite_power (laws.natural_power (M.ident x) 1)
      (by rwa [pow_one])
    have same : -((1 : ℕ) : K) = ((-1 : ℤ) : K) := by norm_num
    rw [same, hw, Option.some.injEq, pow_one] at inverse
    rw [logarithm, laws.ident_self, inverse, one_div]
  · obtain ⟨p, hp, d, hd, nonzero, rfl⟩ := value?_div.mp hv
    have raised := keeps _ _ (value?_plus.mpr ⟨c, hc, 1, value?_one, rfl⟩)
    obtain rfl := Option.some.inj (raised.symm.trans hd)
    obtain ⟨u, hu, d, hd, hp⟩ := value?_pow.mp hp
    obtain rfl : M.ident x = u := by simpa using hu
    obtain rfl := Option.some.inj (raised.symm.trans hd)
    have constant : M.D (c + 1) = 0 := by
      rw [map_add, D_value_of_free laws.toLawful free hc, M.D.map_one_eq_zero, add_zero]
    have lowered : M.power? (M.ident x) (c + 1 - 1) = some w := by rwa [add_sub_cancel_right]
    rw [M.D.leibniz_div_const p _ constant, laws.power_rule constant hp lowered, laws.ident_self,
      smul_eq_mul, mul_one, inv_mul_cancel_left₀ nonzero]

omit keeps in
theorem derives_exponential {base : Expr} (free : base.mentions x = false) :
    M.Derives (if base.isIdent "e" then .pow base (.ident x)
      else .div (.pow base (.ident x)) (.ln base)) (.pow base (.ident x)) := by
  intro v w hv hw
  have power := hw
  obtain ⟨b, hb, u, hu, hw⟩ := value?_pow.mp hw
  obtain rfl : M.ident x = u := by simpa using hu
  split at hv
  · rename_i euler
    obtain rfl : base = .ident "e" := Expr.eq_ident_of_isIdent euler
    have other : x ≠ "e" := by
      rintro rfl
      simp at free
    obtain rfl : M.ident "e" = b := by simpa using hb
    obtain rfl := Option.some.inj (power.symm.trans hv)
    rw [laws.euler_rule other hw, laws.ident_self, mul_one]
  · obtain ⟨p, hp, l, hl, nonzero, rfl⟩ := value?_div.mp hv
    obtain rfl := Option.some.inj (power.symm.trans hp)
    obtain ⟨b', hb', hl⟩ := value?_ln.mp hl
    obtain rfl := Option.some.inj (hb.symm.trans hb')
    have constant := D_value_of_free laws.toLawful free hb
    have logarithm : M.D l = 0 := laws.call_constant (by simpa using constant) hl
    rw [M.D.leibniz_div_const w l logarithm, laws.exponential_rule constant hw hl, laws.ident_self,
      smul_eq_mul, mul_one, mul_comm w l, inv_mul_cancel_left₀ nonzero]

theorem derives_power {base exponent : Expr}
    (found : Expr.integralOfPowerUsing? simplify x base exponent = some F) :
    M.Derives F (.pow base exponent) := by
  unfold Expr.integralOfPowerUsing? at found
  dsimp only at found
  split at found
  · rename_i variablePower
    obtain ⟨rfl, free⟩ := variablePower
    cases found
    exact derives_variablePower laws keeps (by simpa using free)
  split at found
  · rename_i exponential
    obtain ⟨rfl, free⟩ := exponential
    cases found
    exact derives_exponential laws (by simpa using free)
  split at found
  · rename_i square
    subst square
    split at found
    · split at found
      · rename_i symbol
        subst symbol
        exact derives_square laws found
      · cases found
    · cases found
  · cases found

/-- Roots in a denominator: the radicand is one of three, each under the slope of an inverse
function. -/
theorem derives_rootReciprocal {radicand : Expr}
    (found : Expr.integralOfRootReciprocalUsing? simplify (.ident x) radicand = some F) :
    M.Derives F (.div .one (.apply .sqrt radicand)) := by
  have inverse {f : NamedFunction} {e : Expr} {p v w : K} (same : radicand = simplify e)
      (he : M.value? e = some p) (hw : M.value? (.div .one (.apply .sqrt radicand)) = some w)
      (hv : M.call? f [M.ident x] = some v)
      (slope : ∀ r, M.call? .sqrt [p] = some r → r ≠ 0 →
        M.slope? (M.ident x) f = some (1 / r)) : w = M.D v := by
    obtain ⟨one, hone, r, hr, nonzero, rfl⟩ := value?_div.mp hw
    obtain rfl := Option.some.inj (value?_one.symm.trans hone)
    obtain ⟨q, hq, hr⟩ := value?_apply.mp hr
    obtain rfl := Option.some.inj ((keeps _ _ he).symm.trans (same ▸ hq))
    rw [laws.call_chain hv (slope r hr nonzero), laws.ident_self, mul_one]
  unfold Expr.integralOfRootReciprocalUsing? at found
  split at found
  · rename_i same
    cases found
    intro v w hv hw
    exact inverse same ((value?_oneMinusSquare laws).mpr rfl) hw (value?_apply_ident.mp hv)
      fun r hr nonzero => by simp [slope?, hr, nonzero]
  split at found
  · rename_i same
    cases found
    intro v w hv hw
    exact inverse same ((value?_squarePlusOne laws).mpr rfl) hw (value?_apply_ident.mp hv)
      fun r hr nonzero => by simp [slope?, hr, nonzero]
  split at found
  · rename_i same
    cases found
    intro v w hv hw
    exact inverse same ((value?_squareMinusOne laws).mpr rfl) hw (value?_apply_ident.mp hv)
      fun r hr nonzero => by simp [slope?, hr, nonzero]
  · cases found

theorem derives_negatedPower {d : Expr}
    (found : Expr.integralOfNegatedPowerUsing? simplify (.ident x) d = some F) :
    M.Derives F (.div .one d) := by
  unfold Expr.integralOfNegatedPowerUsing? at found
  split at found
  · rename_i n
    simp only [Option.ite_none_right_eq_some, Option.some.injEq] at found
    obtain ⟨rfl, rfl⟩ := found
    intro v w hv hw
    refine derives_variablePower laws keeps (Expr.mentions_number _) v w hv ?_
    obtain ⟨one, hone, p, hp, nonzero, rfl⟩ := value?_div.mp hw
    obtain rfl := Option.some.inj (value?_one.symm.trans hone)
    obtain ⟨u, hu, c, number, power⟩ := value?_pow.mp hp
    have opposite := laws.exact.readsNumerals.neg ((value?_number n).symm.trans number)
    rw [one_div]
    exact value?_pow.mpr ⟨u, hu, -c, (value?_number _).trans opposite,
      laws.opposite_power power nonzero⟩
  · cases found

theorem derives_reciprocal {d : Expr}
    (found : Expr.integralOfReciprocalUsing? simplify (.ident x) d = some F) :
    M.Derives F (.div .one d) := by
  have reciprocal {p w : K} (hd : M.value? d = some p) (hw : M.value? (.div .one d) = some w) :
      p ≠ 0 ∧ w = 1 / p := by
    obtain ⟨one, hone, q, hq, nonzero, rfl⟩ := value?_div.mp hw
    rw [Option.some.inj (hd.symm.trans hq), Option.some.inj (value?_one.symm.trans hone)]
    exact ⟨nonzero, rfl⟩
  unfold Expr.integralOfReciprocalUsing? at found
  dsimp only at found
  split at found
  · rename_i symbol
    subst symbol
    cases found
    intro v w hv hw
    obtain ⟨z, hz, nonzero, logarithm⟩ := D_logOfAbs laws hv
    obtain rfl : M.ident x = z := by simpa using hz
    rw [(reciprocal hz hw).2, logarithm, laws.ident_self]
  split at found
  · exact derives_negatedPower laws keeps found
  split at found
  · rename_i same
    cases found
    intro v w hv hw
    obtain ⟨nonzero, rfl⟩ := reciprocal
      (same ▸ keeps _ _ ((value?_squarePlusOne laws).mpr rfl)) hw
    rw [add_comm] at nonzero ⊢
    have slope : M.slope? (M.ident x) (.arcCircular .tan) = some (1 / (1 + M.ident x ^ 2)) :=
      quotient?_eq_some.mpr ⟨nonzero, rfl⟩
    rw [laws.call_chain (value?_apply_ident.mp hv) slope, laws.ident_self, mul_one]
  split at found
  · rename_i same
    cases found
    intro v w hv hw
    obtain ⟨nonzero, rfl⟩ := reciprocal
      (same ▸ keeps _ _ ((value?_oneMinusSquare laws).mpr rfl)) hw
    have slope : M.slope? (M.ident x) (.arcHyperbolic .tan) = some (1 / (1 - M.ident x ^ 2)) :=
      quotient?_eq_some.mpr ⟨nonzero, rfl⟩
    rw [laws.call_chain (value?_apply_ident.mp hv) slope, laws.ident_self, mul_one]
  · obtain ⟨radicand, root, found⟩ := Option.bind_eq_some_iff.mp found
    obtain rfl := Expr.eq_apply_of_argument? root
    exact derives_rootReciprocal laws keeps found

/-! ## The table -/

/-- Every entry of the table is an antiderivative. -/
theorem derives_tabled [CharZero K] {e : Expr} (found : e.tabledIntegralUsing? simplify x = some F) :
    M.Derives F e := by
  have reads := laws.exact.readsNumerals
  unfold Expr.tabledIntegralUsing? at found
  dsimp only at found
  split at found
  · simp only [Option.ite_none_right_eq_some, Option.some.injEq] at found
    obtain ⟨rfl, rfl⟩ := found
    intro v w hv hw
    obtain ⟨a, ha, rfl⟩ := value?_half hv
    obtain rfl := (value?_symbol_squared laws).mp ha
    obtain rfl : M.ident _ = w := by simpa using hw
    rw [D_half, D_pow, laws.ident_self]
    push_cast
    ring
  · simp only [Option.ite_none_right_eq_some] at found
    obtain ⟨rfl, found⟩ := found
    exact derives_tabled_call laws found
  · exact derives_power laws keeps found
  · simp only [Option.ite_none_left_eq_some, Option.map_eq_some_iff] at found
    obtain ⟨free, reciprocal, found, rfl⟩ := found
    have h := derives_reciprocal laws keeps found
    intro v w hv hw
    obtain ⟨c, hc, d, hd, nonzero, rfl⟩ := value?_div.mp hw
    have unit := value?_div.mpr ⟨1, value?_one, d, hd, nonzero, rfl⟩
    split at hv
    · rename_i one
      rw [reads.value?_isOne one hc]
      exact h v _ hv unit
    · obtain ⟨c', hc', p, hp, rfl⟩ := value?_times.mp hv
      obtain rfl := Option.some.inj (hc.symm.trans hc')
      rw [M.D.leibniz, D_value_of_free laws.toLawful (by simpa using free) hc, smul_zero, add_zero,
        smul_eq_mul, ← h p _ hp unit, mul_one_div]
  · simp only [Option.ite_none_right_eq_some, Option.orElse_eq_orElse, Option.orElse_eq_or,
      Option.or_eq_some_iff] at found
    obtain ⟨⟨rfl, rfl⟩, found | ⟨-, found⟩⟩ := found
    · exact derives_pair laws found
    · intro v w hv hw
      obtain ⟨p, hp, q, hq, rfl⟩ := value?_times.mp hw
      rw [mul_comm]
      exact derives_pair laws found v _ hv (value?_times.mpr ⟨q, hq, p, hp, rfl⟩)
  · cases found

end DifferentialReading

end SymbolicAlgebra
