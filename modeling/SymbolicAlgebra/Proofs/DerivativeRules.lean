import SymbolicAlgebra.Calculus.Derivative
import SymbolicAlgebra.Proofs.Identifiers

/-! What the derivative of an expression can be: one rule for each construct, from which properties of
derivatives follow by induction. -/
namespace SymbolicAlgebra

open SymbolicAlgebra.Expr

theorem exists_of_bind_eq_ok {ε α β : Type} {first : Except ε α} {next : α → Except ε β} {b : β}
    (h : first >>= next = .ok b) : ∃ a, first = .ok a ∧ next a = .ok b := by
  cases first with
  | error e => cases h
  | ok a => exact ⟨a, rfl, h⟩

/-- A relation between expressions and derivatives by `x` that all rules keep. -/
structure DerivativeRules (x : String) (P : Expr → Expr → Prop) : Prop where
  constant {e : Expr} : e.mentions x = false → P e zero
  symbol : P (.ident x) one
  sum {ts ds : List Expr} : List.Forall₂ P ts ds → P (.node .add ts) (Expr.sum ds)
  sub {a b da db : Expr} : P a da → P b db → P (Expr.sub a b) (Expr.sub da db)
  single {a d : Expr} : P a d → P (.node .multiply [a]) d
  /-- The product of the factors so far stands in front of those to come. -/
  accumulated {a b d : Expr} {rest : List Expr} :
    P (.node .multiply (product [a, b] :: rest)) d → P (.node .multiply (a :: b :: rest)) d
  times {a b da db : Expr} : P a da → P b db →
    P (product [a, b]) (Expr.sum [product [da, b], product [a, db]])
  quotient {a b da db : Expr} : P a da → P b db → P (div a b) (quotientDerivative a b da db)
  quotient_constant {a b da : Expr} : P a da → b.mentions x = false → P (div a b) (div da b)
  power {b c db : Expr} : P b db → c.mentions x = false → P (pow b c) (powerDerivative b c db)
  exponential {b c dc : Expr} : P c dc → b.mentions x = false →
    P (pow b c) (exponentialDerivative b c dc)
  general_power {b c db dc : Expr} : P b db → P c dc →
    P (pow b c) (generalPowerDerivative b c db dc)
  call {f : NamedFunction} {u outer inner : Expr} : P u inner → f.derivativeAt? u = some outer →
    P (apply f u) (product [outer, inner])
  log {b u dTop db : Expr} : P (ln u) dTop → P b db →
    P (.call .log [b, u]) (quotientDerivative (ln u) (ln b) dTop (product [b.reciprocal, db]))
  log_constant {b u inner : Expr} : P u inner → b.mentions x = false →
    P (.call .log [b, u]) (div inner (product [u, ln b]))

namespace DerivativeRules

variable {x : String} {P : Expr → Expr → Prop}

/-- The loop over the factors: what holds of the product so far holds of the whole. -/
theorem productDerivative (rules : DerivativeRules x P) {rest : List Expr}
    (each : ∀ t ∈ rest, ∀ d, t.rawDerivative x = .ok d → P t d) {value derivative d : Expr}
    (soFar : P value derivative) (h : Expr.productDerivative x value derivative rest = .ok d) :
    P (.node .multiply (value :: rest)) d := by
  induction rest generalizing value derivative with
  | nil =>
    cases h
    exact rules.single soFar
  | cons factor rest ih =>
    rw [Expr.productDerivative] at h
    obtain ⟨next, hnext, h⟩ := exists_of_bind_eq_ok h
    have both := rules.times soFar (each factor List.mem_cons_self next hnext)
    exact rules.accumulated (ih (fun t member => each t (List.mem_cons_of_mem factor member)) both h)

theorem rawDerivatives {ts ds : List Expr}
    (each : ∀ t ∈ ts, ∀ d, t.rawDerivative x = .ok d → P t d)
    (h : Expr.rawDerivatives x ts = .ok ds) : List.Forall₂ P ts ds := by
  induction ts generalizing ds with
  | nil =>
    cases h
    exact .nil
  | cons t ts ih =>
    rw [Expr.rawDerivatives] at h
    obtain ⟨d, hd, h⟩ := exists_of_bind_eq_ok h
    obtain ⟨rest, hrest, h⟩ := exists_of_bind_eq_ok h
    cases h
    exact .cons (each t List.mem_cons_self d hd)
      (ih (fun s member => each s (List.mem_cons_of_mem t member)) hrest)

theorem rawDerivative_log (rules : DerivativeRules x P) {base arg d : Expr}
    (each : ∀ t ∈ [base, arg], ∀ {d}, t.rawDerivative x = .ok d → P t d)
    (h : (Expr.call .log [base, arg]).rawDerivative x = .ok d) :
    P (.call .log [base, arg]) d := by
  have hbase {d : Expr} : base.rawDerivative x = .ok d → P base d := each base (by simp)
  have harg {d : Expr} : arg.rawDerivative x = .ok d → P arg d := each arg (by simp)
  rw [Expr.rawDerivative] at h
  split at h
  case isTrue free =>
    cases h
    exact rules.constant (by simpa using free)
  split at h
  case isFalse free =>
    obtain ⟨inner, hinner, h⟩ := exists_of_bind_eq_ok h
    cases h
    exact rules.log_constant (harg hinner) (by simpa using free)
  dsimp only at h
  split at h
  case isTrue =>
    obtain ⟨inner, hinner, h⟩ := exists_of_bind_eq_ok h
    obtain ⟨top, htop, h⟩ := exists_of_bind_eq_ok h
    obtain ⟨db, hdb, h⟩ := exists_of_bind_eq_ok h
    cases htop
    cases h
    exact rules.log (rules.call (harg hinner) rfl) (hbase hdb)
  case isFalse free =>
    obtain ⟨top, htop, h⟩ := exists_of_bind_eq_ok h
    obtain ⟨db, hdb, h⟩ := exists_of_bind_eq_ok h
    cases htop
    cases h
    have free' : (ln arg).mentions x = false := by
      simpa [ln, apply] using free
    exact rules.log (rules.constant free') (hbase hdb)

/-- A relation that all rules keep holds between an expression and its derivative. -/
theorem rawDerivative (rules : DerivativeRules x P) {e d : Expr}
    (h : e.rawDerivative x = .ok d) : P e d := by
  induction e generalizing d with
  | number n =>
    cases h
    exact rules.constant rfl
  | complex z =>
    cases h
    exact rules.constant rfl
  | ident name =>
    by_cases same : name = x
    · subst same
      rw [Expr.rawDerivative, if_pos rfl] at h
      cases h
      exact rules.symbol
    · rw [Expr.rawDerivative, if_neg same] at h
      cases h
      exact rules.constant (by simpa using same)
  | call f args ih =>
    have raw := h
    unfold Expr.rawDerivative at h
    split at h
    case isTrue free =>
      cases h
      exact rules.constant (by simpa using free)
    split at h
    case h_1 base arg _ => exact rules.rawDerivative_log ih raw
    case h_2 arg _ =>
      split at h
      case h_1 outer known =>
        obtain ⟨inner, hinner, h⟩ := exists_of_bind_eq_ok h
        cases h
        exact rules.call (ih arg (by simp) hinner) known
      case h_2 => cases h
    case h_3 => cases h
  | node op ts ih =>
    unfold Expr.rawDerivative at h
    split at h
    case isTrue free =>
      cases h
      exact rules.constant (by simpa using free)
    split at h
    case h_1 =>
      obtain ⟨ds, hds, h⟩ := exists_of_bind_eq_ok h
      cases h
      exact rules.sum (rawDerivatives (fun t member _ => ih t member) hds)
    case h_2 a b _ =>
      obtain ⟨da, hda, h⟩ := exists_of_bind_eq_ok h
      obtain ⟨db, hdb, h⟩ := exists_of_bind_eq_ok h
      cases h
      exact rules.sub (ih a (by simp) hda) (ih b (by simp) hdb)
    case h_3 first rest _ =>
      obtain ⟨d₀, hd₀, h⟩ := exists_of_bind_eq_ok h
      exact rules.productDerivative (fun t member _ => ih t (List.mem_cons_of_mem first member))
        (ih first List.mem_cons_self hd₀) h
    case h_4 a b _ =>
      obtain ⟨da, hda, h⟩ := exists_of_bind_eq_ok h
      have top := ih a (by simp) hda
      split at h
      case isTrue =>
        obtain ⟨db, hdb, h⟩ := exists_of_bind_eq_ok h
        cases h
        exact rules.quotient top (ih b (by simp) hdb)
      case isFalse free =>
        cases h
        exact rules.quotient_constant top (by simpa using free)
    case h_5 base exponent _ =>
      split at h
      case isTrue free =>
        obtain ⟨db, hdb, h⟩ := exists_of_bind_eq_ok h
        cases h
        exact rules.power (ih base (by simp) hdb) (by simpa using free)
      case isFalse =>
        obtain ⟨dc, hdc, h⟩ := exists_of_bind_eq_ok h
        have inner := ih exponent (by simp) hdc
        split at h
        case isTrue free =>
          cases h
          exact rules.exponential inner (by simpa using free)
        case isFalse =>
          obtain ⟨db, hdb, h⟩ := exists_of_bind_eq_ok h
          cases h
          exact rules.general_power (ih base (by simp) hdb) inner
    case h_6 => cases h

end DerivativeRules

end SymbolicAlgebra
