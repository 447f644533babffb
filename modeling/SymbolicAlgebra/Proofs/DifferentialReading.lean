import Mathlib.RingTheory.Derivation.Basic
import Mathlib.Tactic.FieldSimp
import Mathlib.Tactic.Ring
import SymbolicAlgebra.Calculus.Derivative
import SymbolicAlgebra.Proofs.Congruence

/-! The values of expressions in a field with a derivation, and the rules of calculus there.

Powers are read as freely as calls are: nothing is said about which powers exist, only what the
derivation makes of those that do. -/
namespace SymbolicAlgebra

/-- A field with a derivation, and how expressions are read in it. -/
structure DifferentialReading (K : Type*) [Field K] where
  D : Derivation ℤ K K
  ident : String → K
  float? : FiniteFloat → Option K
  /-- The imaginary unit, where there is one. -/
  unit? : Option K
  call? : NamedFunction → List K → Option K
  power? : K → K → Option K
  /-- The remainder, the bitwise operators and the shifts. -/
  integral? : Operator → List K → Option K

namespace DifferentialReading

variable {K : Type*} [Field K]

open Classical in
/-- The quotient of two elements; none over zero. -/
noncomputable def quotient? (a b : K) : Option K := if b = 0 then none else some (a / b)

/-- The value of a numeral. A fraction has one unless its denominator is zero in the field. -/
noncomputable def numeral? (M : DifferentialReading K) : Numeral → Option K
  | .exact r => quotient? (r.num : K) r.den
  | .float f => M.float? f
  | .nan => none

noncomputable def operate? (M : DifferentialReading K) : Operator → List K → Option K
  | .add, vs => some vs.sum
  | .multiply, vs => some vs.prod
  | .subtract, [a, b] => some (a - b)
  | .divide, [a, b] => quotient? a b
  | .power, [b, c] => M.power? b c
  | .subtract, _ | .divide, _ | .power, _ => none
  | op, vs => M.integral? op vs

mutual

/-- The value of an expression, if all its parts have one. -/
noncomputable def value? (M : DifferentialReading K) : Expr → Option K
  | .number x => M.numeral? x
  | .complex z => do
    let unit ← M.unit?
    pure ((← M.numeral? z.re) + (← M.numeral? z.im) * unit)
  | .ident name => some (M.ident name)
  | .call f xs => do M.call? f (← values? M xs)
  | .node op xs => do M.operate? op (← values? M xs)

noncomputable def values? (M : DifferentialReading K) : List Expr → Option (List K)
  | [] => some []
  | x :: xs => do pure ((← value? M x) :: (← values? M xs))

end

/-- The slope of a named function of one argument at `u`. The logarithm to base ten is not in the
table: it is a quotient of two natural ones. -/
noncomputable def slope? (M : DifferentialReading K) (u : K) : NamedFunction → Option K
  | .circular .sin => M.call? .cos [u]
  | .circular .cos => do pure (-(← M.call? .sin [u]))
  | .circular .tan => do pure ((← M.call? .sec [u]) ^ 2)
  | .circular .csc => do pure (-((← M.call? .csc [u]) * (← M.call? .cot [u])))
  | .circular .sec => do pure ((← M.call? .sec [u]) * (← M.call? .tan [u]))
  | .circular .cot => do pure (-(← M.call? .csc [u]) ^ 2)
  | .arcCircular .sin => do quotient? 1 (← M.call? .sqrt [1 - u ^ 2])
  | .arcCircular .cos => do quotient? (-1) (← M.call? .sqrt [1 - u ^ 2])
  | .arcCircular .tan => quotient? 1 (1 + u ^ 2)
  | .arcCircular .cot => quotient? (-1) (1 + u ^ 2)
  | .arcCircular .sec => do
    quotient? 1 ((← M.call? .abs [u]) * (← M.call? .sqrt [u ^ 2 - 1]))
  | .arcCircular .csc => do
    quotient? (-1) ((← M.call? .abs [u]) * (← M.call? .sqrt [u ^ 2 - 1]))
  | .hyperbolic .sin => M.call? .cosh [u]
  | .hyperbolic .cos => M.call? .sinh [u]
  | .hyperbolic .tan => do pure ((← M.call? .sech [u]) ^ 2)
  | .hyperbolic .csc => do pure (-((← M.call? .csch [u]) * (← M.call? .coth [u])))
  | .hyperbolic .sec => do pure (-((← M.call? .sech [u]) * (← M.call? .tanh [u])))
  | .hyperbolic .cot => do pure (-(← M.call? .csch [u]) ^ 2)
  | .arcHyperbolic .sin => do quotient? 1 (← M.call? .sqrt [u ^ 2 + 1])
  | .arcHyperbolic .cos => do quotient? 1 (← M.call? .sqrt [u ^ 2 - 1])
  | .arcHyperbolic .tan => quotient? 1 (1 - u ^ 2)
  | .arcHyperbolic .cot => quotient? 1 (1 - u ^ 2)
  | .arcHyperbolic .csc => do
    quotient? (-1) ((← M.call? .abs [u]) * (← M.call? .sqrt [1 + u ^ 2]))
  | .arcHyperbolic .sec => do quotient? (-1) (u * (← M.call? .sqrt [1 - u ^ 2]))
  | .ln => quotient? 1 u
  | .log => none
  | .abs => M.call? .sgn [u]
  | .sqrt => do quotient? 1 (2 * (← M.call? .sqrt [u]))
  | .sgn => some 0
  | .other _ => none

/-- The rules of calculus for the derivation by the identifier `x`. Every rule is about values that
exist. -/
structure Lawful (M : DifferentialReading K) (x : String) : Prop where
  ident_self : M.D (M.ident x) = 1
  ident_other (name : String) : name ≠ x → M.D (M.ident name) = 0
  float_constant {f : FiniteFloat} {v : K} : M.float? f = some v → M.D v = 0
  /-- Floats are rounded, so they have values only as far as taking one away from them is exact. -/
  float_sub_one {f : FiniteFloat} {v w : K} :
    M.float? f = some v → M.numeral? ((Numeral.float f).sub .one) = some w → w = v - 1
  unit_constant {i : K} : M.unit? = some i → M.D i = 0
  call_constant {f : NamedFunction} {us : List K} {v : K} :
    (∀ u ∈ us, M.D u = 0) → M.call? f us = some v → M.D v = 0
  power_constant {b c v : K} : M.D b = 0 → M.D c = 0 → M.power? b c = some v → M.D v = 0
  integral_constant {op : Operator} {us : List K} {v : K} :
    (∀ u ∈ us, M.D u = 0) → M.integral? op us = some v → M.D v = 0
  /-- The chain rule, with the textbook slope. -/
  call_chain {f : NamedFunction} {u v s : K} :
    M.call? f [u] = some v → M.slope? u f = some s → M.D v = s * M.D u
  log_ten {u v : K} : M.call? .log [u] = some v →
    ∃ top bottom, M.call? .ln [u] = some top ∧ M.call? .ln [10] = some bottom ∧
      quotient? top bottom = some v
  log_base {b u v : K} : M.call? .log [b, u] = some v →
    ∃ top bottom, M.call? .ln [u] = some top ∧ M.call? .ln [b] = some bottom ∧
      quotient? top bottom = some v
  power_natural {b v : K} {n : ℕ} : 0 < n → M.power? b n = some v → v = b ^ n
  power_rule {b c v lowered : K} : M.D c = 0 → M.power? b c = some v →
    M.power? b (c - 1) = some lowered → M.D v = c * lowered * M.D b
  exponential_rule {b c v l : K} : M.D b = 0 → M.power? b c = some v → M.call? .ln [b] = some l →
    M.D v = v * l * M.D c
  /-- The identifier `e` is Euler's number, unless it is what one derives by. -/
  euler_rule {c v : K} : x ≠ "e" → M.power? (M.ident "e") c = some v → M.D v = v * M.D c
  general_power_rule {b c v l : K} : b ≠ 0 → M.power? b c = some v → M.call? .ln [b] = some l →
    M.D v = v * (M.D c * l + c * M.D b / b)

/-! ## Values of built expressions -/

variable {M : DifferentialReading K}

@[simp] theorem quotient?_eq_some {a b v : K} : quotient? a b = some v ↔ b ≠ 0 ∧ a / b = v := by
  by_cases zero : b = 0 <;> simp [quotient?, zero]

@[simp] theorem values?_nil : M.values? [] = some [] := rfl

@[simp] theorem values?_cons {t : Expr} {ts : List Expr} {vs : List K} :
    M.values? (t :: ts) = some vs ↔
      ∃ v, M.value? t = some v ∧ ∃ rest, M.values? ts = some rest ∧ v :: rest = vs := by
  simp [values?, Option.bind_eq_some_iff]

@[simp] theorem value?_call {f : NamedFunction} {ts : List Expr} {v : K} :
    M.value? (.call f ts) = some v ↔ ∃ us, M.values? ts = some us ∧ M.call? f us = some v := by
  simp [value?, Option.bind_eq_some_iff]

@[simp] theorem value?_node {op : Operator} {ts : List Expr} {v : K} :
    M.value? (.node op ts) = some v ↔
      ∃ us, M.values? ts = some us ∧ M.operate? op us = some v := by
  simp [value?, Option.bind_eq_some_iff]

@[simp] theorem value?_ident (name : String) : M.value? (.ident name) = some (M.ident name) := by
  rw [value?]

@[simp] theorem value?_ofInt (n : ℤ) : M.value? (.ofInt n) = some (n : K) := by
  simp [Expr.ofInt, Numeral.ofInt, value?, numeral?]

@[simp] theorem value?_zero : M.value? .zero = some 0 := by simp [Expr.zero]

@[simp] theorem value?_one : M.value? .one = some 1 := by simp [Expr.one]

@[simp] theorem value?_apply {f : NamedFunction} {t : Expr} {v : K} :
    M.value? (.apply f t) = some v ↔ ∃ u, M.value? t = some u ∧ M.call? f [u] = some v := by
  simp [Expr.apply]

@[simp] theorem value?_ln {t : Expr} {v : K} :
    M.value? (.ln t) = some v ↔ ∃ u, M.value? t = some u ∧ M.call? .ln [u] = some v := by
  rw [Expr.ln, value?_apply]

@[simp] theorem value?_sub {a b : Expr} {v : K} :
    M.value? (.sub a b) = some v ↔
      ∃ p, M.value? a = some p ∧ ∃ q, M.value? b = some q ∧ p - q = v := by
  simp [Expr.sub, operate?]

@[simp] theorem value?_div {a b : Expr} {v : K} :
    M.value? (.div a b) = some v ↔
      ∃ p, M.value? a = some p ∧ ∃ q, M.value? b = some q ∧ q ≠ 0 ∧ p / q = v := by
  simp [Expr.div, operate?]

@[simp] theorem value?_pow {a b : Expr} {v : K} :
    M.value? (.pow a b) = some v ↔
      ∃ p, M.value? a = some p ∧ ∃ q, M.value? b = some q ∧ M.power? p q = some v := by
  simp [Expr.pow, operate?]

@[simp] theorem value?_sum {ts : List Expr} {v : K} :
    M.value? (.sum ts) = some v ↔ ∃ vs, M.values? ts = some vs ∧ vs.sum = v := by
  match ts with
  | [] => simp [Expr.sum]
  | [t] => simp [Expr.sum]
  | t :: s :: ts => simp [Expr.sum, operate?]

@[simp] theorem value?_product {ts : List Expr} {v : K} :
    M.value? (.product ts) = some v ↔ ∃ vs, M.values? ts = some vs ∧ vs.prod = v := by
  match ts with
  | [] => simp [Expr.product]
  | [t] => simp [Expr.product]
  | t :: s :: ts => simp [Expr.product, operate?]

theorem value?_times {a b : Expr} {v : K} :
    M.value? (.product [a, b]) = some v ↔
      ∃ p, M.value? a = some p ∧ ∃ q, M.value? b = some q ∧ p * q = v := by
  simp [Expr.product, operate?]

theorem value?_times_times {a b c : Expr} {v : K} :
    M.value? (.product [a, b, c]) = some v ↔
      ∃ p, M.value? a = some p ∧ ∃ q, M.value? b = some q ∧ ∃ r, M.value? c = some r ∧
        p * (q * r) = v := by
  simp [Expr.product, operate?, and_assoc]

theorem value?_plus {a b : Expr} {v : K} :
    M.value? (.sum [a, b]) = some v ↔
      ∃ p, M.value? a = some p ∧ ∃ q, M.value? b = some q ∧ p + q = v := by
  simp [Expr.sum, operate?]

end DifferentialReading

end SymbolicAlgebra
