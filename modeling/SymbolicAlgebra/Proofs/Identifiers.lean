import Mathlib.Data.Set.Insert
import SymbolicAlgebra.Expr.ComplexConstant
import SymbolicAlgebra.Expr.Query
import SymbolicAlgebra.Expr.Replace
import SymbolicAlgebra.Expr.Sign
import SymbolicAlgebra.Product.Coefficient
import SymbolicAlgebra.Proofs.Congruence

/-! The identifiers of an expression, and what the builders of expressions make of them. -/
namespace SymbolicAlgebra

namespace Expr

variable {x name : String}

theorem anyMentions_eq (xs : List Expr) : anyMentions x xs = xs.any (mentions x) := by
  induction xs with
  | nil => rfl
  | cons y ys ih => rw [anyMentions, ih, List.any_cons]

@[simp] theorem mentions_number (n : Numeral) : mentions x (.number n) = false := rfl

@[simp] theorem mentions_complex (z : ComplexNumeral) : mentions x (.complex z) = false := rfl

@[simp] theorem mentions_ident : mentions x (.ident name) = (name == x) := rfl

@[simp] theorem mentions_call (f : NamedFunction) (xs : List Expr) :
    mentions x (.call f xs) = xs.any (mentions x) := by
  rw [mentions, anyMentions_eq]

@[simp] theorem mentions_node (op : Operator) (xs : List Expr) :
    mentions x (.node op xs) = xs.any (mentions x) := by
  rw [mentions, anyMentions_eq]

/-! ## The list of identifiers -/

theorem mem_insertName {names : List String} : x ∈ insertName name names ↔ x = name ∨ x ∈ names := by
  induction names with
  | nil => simp [insertName]
  | cons n ns ih =>
    rw [insertName]
    split
    · simp
    · split
      case isTrue same => simp [same]
      case isFalse => simp only [List.mem_cons, ih, or_left_comm]

theorem mem_collectAllNames {xs : List Expr} {seen : List String}
    (each : ∀ y ∈ xs, ∀ seen, x ∈ collectNames seen y ↔ x ∈ seen ∨ y.mentions x = true) :
    x ∈ collectAllNames seen xs ↔ x ∈ seen ∨ ∃ y ∈ xs, y.mentions x = true := by
  induction xs generalizing seen with
  | nil => simp [collectAllNames]
  | cons y ys ih =>
    obtain ⟨here, there⟩ := List.forall_mem_cons.mp each
    rw [collectAllNames, ih there, here, List.exists_mem_cons_iff, or_assoc]

theorem mem_collectNames (e : Expr) (seen : List String) :
    x ∈ collectNames seen e ↔ x ∈ seen ∨ e.mentions x = true := by
  induction e generalizing seen with
  | number n => simp [collectNames]
  | complex z => simp [collectNames]
  | ident name =>
    rw [collectNames, mem_insertName, mentions_ident, beq_iff_eq]
    exact or_comm.trans (or_congr_right eq_comm)
  | call f xs ih =>
    rw [collectNames, mem_collectAllNames ih, mentions_call, List.any_eq_true]
  | node op xs ih =>
    rw [collectNames, mem_collectAllNames ih, mentions_node, List.any_eq_true]

@[simp] theorem mem_identifiers {e : Expr} : x ∈ e.identifiers ↔ e.mentions x = true := by
  simp [identifiers, mem_collectNames]

theorem mentions_of_mem_unknowns {e : Expr} (h : x ∈ e.unknowns) : e.mentions x = true :=
  mem_identifiers.mp (List.mem_of_mem_filter h)

/-! ## Expressions over given names -/

/-- All identifiers are among the names. -/
def NamesIn (S : Set String) (e : Expr) : Prop := ∀ name, e.mentions name = true → name ∈ S

variable {S T : Set String}

theorem NamesIn.mono {e : Expr} (h : e.NamesIn S) (sub : S ⊆ T) : e.NamesIn T :=
  fun name occurs => sub (h name occurs)

/-- Without a name an expression is over all others. -/
theorem namesIn_others {e : Expr} :
    e.NamesIn {n | n ≠ name} ↔ e.mentions name = false := by
  constructor
  · intro others
    exact Bool.eq_false_iff.mpr fun occurs => others name occurs rfl
  · rintro free _ occurs rfl
    rw [free] at occurs
    cases occurs

/-- A name that does not occur need not be among them. -/
theorem NamesIn.of_insert {e : Expr} (h : e.NamesIn (insert x S)) (absent : e.mentions x = false) :
    e.NamesIn S := by
  intro name occurs
  rcases h name occurs with rfl | inside
  · rw [occurs] at absent
    cases absent
  · exact inside

@[simp] theorem namesIn_number (n : Numeral) : (number n).NamesIn S := nofun

@[simp] theorem namesIn_complex (z : ComplexNumeral) : (complex z).NamesIn S := nofun

@[simp] theorem namesIn_ident : (ident name).NamesIn S ↔ name ∈ S := by
  simp [NamesIn]

@[simp] theorem namesIn_call {f : NamedFunction} {xs : List Expr} :
    (call f xs).NamesIn S ↔ ∀ y ∈ xs, y.NamesIn S := by
  simp only [NamesIn, mentions_call, List.any_eq_true]
  grind

@[simp] theorem namesIn_node {op : Operator} {xs : List Expr} :
    (node op xs).NamesIn S ↔ ∀ y ∈ xs, y.NamesIn S := by
  simp only [NamesIn, mentions_node, List.any_eq_true]
  grind

@[simp] theorem namesIn_ofInt (n : Int) : (ofInt n).NamesIn S := nofun

@[simp] theorem namesIn_zero : zero.NamesIn S := nofun

@[simp] theorem namesIn_one : one.NamesIn S := nofun

@[simp] theorem namesIn_nan : nan.NamesIn S := nofun

@[simp] theorem namesIn_sum {xs : List Expr} : (sum xs).NamesIn S ↔ ∀ y ∈ xs, y.NamesIn S := by
  match xs with
  | [] => simp [sum]
  | [y] => simp [sum]
  | y :: z :: zs => simp [sum]

@[simp] theorem namesIn_product {xs : List Expr} :
    (product xs).NamesIn S ↔ ∀ y ∈ xs, y.NamesIn S := by
  match xs with
  | [] => simp [product]
  | [y] => simp [product]
  | y :: z :: zs => simp [product]

@[simp] theorem namesIn_add {a b : Expr} : (add a b).NamesIn S ↔ a.NamesIn S ∧ b.NamesIn S := by
  simp [add]

@[simp] theorem namesIn_sub {a b : Expr} : (sub a b).NamesIn S ↔ a.NamesIn S ∧ b.NamesIn S := by
  simp [sub]

@[simp] theorem namesIn_mul {a b : Expr} : (mul a b).NamesIn S ↔ a.NamesIn S ∧ b.NamesIn S := by
  simp [mul]

@[simp] theorem namesIn_div {a b : Expr} : (div a b).NamesIn S ↔ a.NamesIn S ∧ b.NamesIn S := by
  simp [div]

@[simp] theorem namesIn_pow {a b : Expr} : (pow a b).NamesIn S ↔ a.NamesIn S ∧ b.NamesIn S := by
  simp [pow]

@[simp] theorem namesIn_apply {f : NamedFunction} {a : Expr} :
    (apply f a).NamesIn S ↔ a.NamesIn S := by
  simp [apply]

@[simp] theorem namesIn_ln {a : Expr} : (ln a).NamesIn S ↔ a.NamesIn S := by
  rw [ln, namesIn_apply]

@[simp] theorem namesIn_ofRat (r : Rat) : (ofRat r).NamesIn S := by
  unfold ofRat
  split <;> simp

@[simp] theorem namesIn_ofNumeral (n : Numeral) : (ofNumeral n).NamesIn S := by
  cases n <;> simp [ofNumeral]

@[simp] theorem namesIn_ofComplex (z : ComplexNumeral) : (ofComplex z).NamesIn S := by
  unfold ofComplex
  split <;> simp

theorem NamesIn.ite {c : Prop} [Decidable c] {a b : Expr} (ha : a.NamesIn S) (hb : b.NamesIn S) :
    (if c then a else b).NamesIn S := by
  split
  · exact ha
  · exact hb

/-! ## Parts -/

@[simp] theorem namesIn_factors {e : Expr} : (∀ y ∈ e.factors, y.NamesIn S) ↔ e.NamesIn S := by
  unfold factors
  split <;> simp

@[simp] theorem namesIn_addends {e : Expr} : (∀ y ∈ e.addends, y.NamesIn S) ↔ e.NamesIn S := by
  unfold addends
  split <;> simp

theorem namesIn_filter {p : Expr → Bool} {xs : List Expr} (h : ∀ y ∈ xs, y.NamesIn S) :
    ∀ y ∈ xs.filter p, y.NamesIn S := fun y member => h y (List.mem_of_mem_filter member)

theorem namesIn_append {xs ys : List Expr} (hx : ∀ y ∈ xs, y.NamesIn S)
    (hy : ∀ y ∈ ys, y.NamesIn S) : ∀ y ∈ xs ++ ys, y.NamesIn S :=
  List.forall_mem_append.mpr ⟨hx, hy⟩

theorem NamesIn.argument? {f : NamedFunction} {e arg : Expr} (h : e.NamesIn S)
    (found : e.argument? f = some arg) : arg.NamesIn S := by
  obtain rfl := eq_apply_of_argument? found
  simpa [apply] using h

theorem NamesIn.times {a b : Expr} (ha : a.NamesIn S) (hb : b.NamesIn S) : (a.times b).NamesIn S :=
  namesIn_product.mpr
    (namesIn_filter (namesIn_append (namesIn_factors.mpr ha) (namesIn_factors.mpr hb)))

theorem NamesIn.negateFactors {xs : List Expr} (h : ∀ y ∈ xs, y.NamesIn S) :
    ∀ y ∈ negateFactors xs, y.NamesIn S := by
  unfold Expr.negateFactors
  split
  · split <;> simp_all
  · simp_all

theorem NamesIn.negate {e : Expr} (h : e.NamesIn S) : e.negate.NamesIn S := by
  induction e with
  | number n => exact namesIn_number _
  | complex z => exact namesIn_complex _
  | ident name => simp_all [Expr.negate]
  | call f xs ih => simpa [Expr.negate] using h
  | node op xs ih =>
    unfold Expr.negate
    split
    case h_1 same => cases same
    case h_2 same => cases same
    case h_3 factors same =>
      cases same
      exact namesIn_product.mpr (.negateFactors (namesIn_node.mp h))
    case h_4 n d same =>
      cases same
      simp_all
    case h_5 => simpa using h

theorem NamesIn.unsigned {e : Expr} (h : e.NamesIn S) : e.unsigned.NamesIn S := by
  induction e with
  | node op xs ih =>
    unfold Expr.unsigned
    split
    case h_1 n d same =>
      cases same
      split <;> simp_all
    case h_2 =>
      split
      · exact h.negate
      · exact h
  | _ =>
    unfold Expr.unsigned
    split
    · exact h.negate
    · exact h

/-! ## Coefficients -/

theorem NamesIn.scaleWhole {c : Numeral} {e : Expr} (h : e.NamesIn S) :
    (e.scaleWhole c).NamesIn S := by
  induction e with
  | node op xs ih =>
    unfold Expr.scaleWhole
    split
    case h_1 upper lower same =>
      cases same
      split
      · exact namesIn_zero
      · split <;> simp_all
    case h_2 =>
      repeat' split
      all_goals simp_all
  | _ =>
    unfold Expr.scaleWhole
    repeat' split
    all_goals simp_all

theorem NamesIn.scale {c : Numeral} {e : Expr} (h : e.NamesIn S) : (scale c e).NamesIn S := by
  unfold Expr.scale
  split
  · split
    · obtain ⟨upper, lower⟩ := by simpa using h
      exact namesIn_div.mpr ⟨upper.scaleWhole, lower.scaleWhole⟩
    · exact namesIn_div.mpr ⟨h.scaleWhole, namesIn_ofInt _⟩
  · exact h.scaleWhole

theorem NamesIn.asMultiple {e : Expr} (h : e.NamesIn S) : e.asMultiple.2.NamesIn S := by
  induction e with
  | node op xs ih =>
    unfold Expr.asMultiple
    split
    case h_1 factors same =>
      cases same
      exact namesIn_product.mpr (namesIn_filter (namesIn_node.mp h))
    case h_2 n d same =>
      cases same
      obtain ⟨top, bottom⟩ : n.NamesIn S ∧ d.NamesIn S := by simpa using h
      have top := ih n (by simp) top
      have bottom := ih d (by simp) bottom
      unfold quotientMultiple
      split
      · exact namesIn_div.mpr ⟨top.scale, bottom.scale⟩
      · dsimp only
        split
        · exact top
        · exact namesIn_div.mpr ⟨top, bottom⟩
    case h_3 same => cases same
    case h_4 => exact h
  | number n => exact namesIn_one
  | _ => exact h

theorem NamesIn.asPower {e : Expr} (h : e.NamesIn S) :
    e.asPower.1.NamesIn S ∧ e.asPower.2.NamesIn S := by
  unfold Expr.asPower
  split
  · simpa using h
  · exact ⟨h, namesIn_one⟩

/-! ## Replacement -/

theorem replaceAll_fst (target replacement : Expr) (xs : List Expr) :
    (replaceAll target replacement xs).1 = xs.map fun y => (replace target replacement y).expr := by
  induction xs with
  | nil => rfl
  | cons y ys ih => rw [replaceAll, ih, List.map_cons]

theorem replaceAll_snd (target replacement : Expr) (xs : List Expr) :
    (replaceAll target replacement xs).2 =
      xs.any fun y => (replace target replacement y).changed := by
  induction xs with
  | nil => rfl
  | cons y ys ih => rw [replaceAll, ih, List.any_cons]

theorem replace_self (target replacement : Expr) :
    replace target replacement target = .new replacement := by
  unfold replace
  split <;> exact if_pos rfl

theorem replace_call {target : Expr} {f : NamedFunction} {xs : List Expr}
    (other : .call f xs ≠ target) (replacement : Expr) :
    replace target replacement (.call f xs) =
      ⟨.call f (xs.map fun y => (replace target replacement y).expr),
        xs.any fun y => (replace target replacement y).changed⟩ := by
  rw [replace, if_neg other, ← replaceAll_fst, ← replaceAll_snd]

theorem replace_node {target : Expr} {op : Operator} {xs : List Expr}
    (other : .node op xs ≠ target) (replacement : Expr) :
    replace target replacement (.node op xs) =
      ⟨.node op (xs.map fun y => (replace target replacement y).expr),
        xs.any fun y => (replace target replacement y).changed⟩ := by
  rw [replace, if_neg other, ← replaceAll_fst, ← replaceAll_snd]

theorem NamesIn.replace {target replacement e : Expr} (h : e.NamesIn S)
    (put : replacement.NamesIn S) : (replace target replacement e).expr.NamesIn S := by
  have whole : (Expr.replace target replacement target).expr.NamesIn S := by
    rw [replace_self]
    exact put
  induction e with
  | call f xs ih =>
    by_cases here : .call f xs = target
    · exact here ▸ whole
    · rw [replace_call here]
      simp_all
  | node op xs ih =>
    by_cases here : .node op xs = target
    · exact here ▸ whole
    · rw [replace_node here]
      simp_all
  | _ =>
    unfold Expr.replace
    split
    · exact put
    · exact h

/-- An identifier that is replaced is gone. -/
theorem NamesIn.replaceIdent {e replacement : Expr} (h : e.NamesIn (insert x S))
    (put : replacement.NamesIn S) : (e.replaceIdent x replacement).expr.NamesIn S := by
  unfold Expr.replaceIdent
  induction e with
  | ident name =>
    unfold Expr.replace
    split
    case isTrue => exact put
    case isFalse other => exact h.of_insert (by simpa using other)
  | call f xs ih =>
    rw [replace_call (by simp)]
    simp_all
  | node op xs ih =>
    rw [replace_node (by simp)]
    simp_all
  | number n => simp [Expr.replace, Step.same]
  | complex z => simp [Expr.replace, Step.same]

end Expr

/-! ## Rules -/

variable {S : Set String}

/-- A rule that brings no name in at one node brings none in anywhere. -/
theorem Expr.NamesIn.everywhere {rule : Expr → Step}
    (keeps : ∀ e : Expr, e.NamesIn S → (rule e).expr.NamesIn S) {e : Expr} (h : e.NamesIn S) :
    (everywhere rule e).expr.NamesIn S := by
  induction e with
  | call f xs ih =>
    rw [everywhere_call]
    apply keeps
    simp_all
  | node op xs ih =>
    rw [everywhere_node]
    apply keeps
    simp_all
  | _ => exact keeps _ h

end SymbolicAlgebra
