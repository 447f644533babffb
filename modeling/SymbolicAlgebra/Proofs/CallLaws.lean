import SymbolicAlgebra.Product.LikeFactors
import SymbolicAlgebra.Proofs.Multiples
import SymbolicAlgebra.Rule.Call

/-! The identities of the circular and hyperbolic functions, of the logarithm and of the sign, as
laws for the reading of calls. A reading without calls obeys all of them. -/
namespace SymbolicAlgebra

namespace Reading

variable {K : Type*} [Field K]

/-- The laws that products, powers and sums of calls are collected by: two functions that multiply
to one or to a third function, two squares that add up to one, and `e ^ ln(x) = x`. -/
structure CollectionLaws (R : Reading K) : Prop where
  cancel : ∀ {f g : NamedFunction} {x v w : K}, f.times? g = some none →
    R.call f [x] = some v → R.call g [x] = some w → v * w = 1
  reduce : ∀ {f g h : NamedFunction} {x v w : K}, f.times? g = some (some h) →
    R.call f [x] = some v → R.call g [x] = some w → R.call h [x] = some (v * w)
  squares : ∀ {f g : NamedFunction} {s : Int} {x v w : K}, f.complementSign? g = some s →
    R.call f [x] = some v → R.call g [x] = some w → v ^ 2 + s * w ^ 2 = 1
  /-- Functions whose squares add up to one have values at the same places. -/
  domain : ∀ {f g : NamedFunction} {s : Int} (x : K), f.complementSign? g = some s →
    ((R.call f [x]).isSome ↔ (R.call g [x]).isSome)
  /-- Where `e ^ ln(x)` has a value. -/
  exponential : ∀ {x : K} {n : ℤ}, R.call .ln [x] = some (n : K) → (R.ident "e" = 0 → 0 ≤ n) →
    R.ident "e" ^ n = x

/-- The laws that calls are evaluated by: signs pass through odd functions and vanish in even ones,
reciprocal functions are reciprocal, and the values at special arguments are the usual ones. -/
structure EvaluationLaws (R : Reading K) : Prop where
  odd : ∀ {f : NamedFunction} {x v : K}, f.isOdd → R.call f [x] = some v →
    R.call f [-x] = some (-v)
  even : ∀ {f : NamedFunction} {x v : K}, f.isEven → R.call f [x] = some v →
    R.call f [-x] = some v
  reciprocal : ∀ {f g : NamedFunction} {x v : K}, f.reciprocal? = some g →
    R.call f [x] = some v → v ≠ 0 → R.call g [x] = some v⁻¹
  atZero : ∀ {f : NamedFunction} {e : Expr} {v : K}, f.atZero? = some e →
    R.call f [0] = some v → v = R.val e
  ln_one : ∀ {v : K}, R.call .ln [1] = some v → v = 0
  log_one : ∀ {v : K}, R.call .log [1] = some v → v = 0
  abs : ∀ {r : Rat} {v : K}, R.call .abs [(r : K)] = some v → v = (|r| : Rat)
  sqrt : ∀ {r : Rat} {v : K}, 0 ≤ r → R.call .sqrt [(r * r : K)] = some v → v = r
  sgn : ∀ {r : Rat} {v : K}, r ≠ 0 → R.call .sgn [(r : K)] = some v → v = if r < 0 then -1 else 1
  ln_e : ∀ {v : K}, R.call .ln [R.ident "e"] = some v → v = 1
  ln_power : ∀ {n : ℤ} {v : K}, R.call .ln [R.ident "e" ^ n] = some v → v = n
  log_self : ∀ {x v : K}, R.call .log [x, x] = some v → v = 1
  log_of_one : ∀ {x v : K}, R.call .log [x, 1] = some v → v = 0

theorem ofAssignment_evaluationLaws (ident : String → K) : (ofAssignment ident).EvaluationLaws where
  odd _ found := nomatch found
  even _ found := nomatch found
  reciprocal _ found := nomatch found
  atZero _ found := nomatch found
  ln_one found := nomatch found
  log_one found := nomatch found
  abs found := nomatch found
  sqrt _ found := nomatch found
  sgn _ found := nomatch found
  ln_e found := nomatch found
  ln_power found := nomatch found
  log_self found := nomatch found
  log_of_one found := nomatch found

theorem ofAssignment_collectionLaws (ident : String → K) : (ofAssignment ident).CollectionLaws where
  cancel _ found := nomatch found
  reduce _ found := nomatch found
  squares _ found := nomatch found
  domain _ _ := Iff.rfl
  exponential found := nomatch found

end Reading

end SymbolicAlgebra
