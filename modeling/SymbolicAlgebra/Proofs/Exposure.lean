import SymbolicAlgebra.Proofs.CanonicalOperands
import SymbolicAlgebra.Proofs.SumForm
import SymbolicAlgebra.Proofs.ZeroDivisors

/-! One division by zero in a tree, with nothing above it that absorbs it: it is an addend beside
others that have values, a factor beside numerals, or stands above a bar with numerals below it. A
rule that does right by each such node leaves one division by zero, as exposed as it was. -/
namespace SymbolicAlgebra

/-- An exact numeral other than zero. -/
def Expr.IsNonzeroNumeral (e : Expr) : Prop := ∃ r : Rat, r ≠ 0 ∧ e = .number (.exact r)

/-- A product of exact numerals other than zero, or one of them. -/
def Expr.IsScalar (e : Expr) : Prop := ∀ f ∈ e.factors, f.IsNonzeroNumeral

namespace Reading

variable {K : Type*} [Field K]

/-- One division by zero that nothing absorbs. The divisor has the value zero and the dividend
another one, unless the divisor is such that the quotient is seen to be undefined `atOnce`. Where the
flag is set the division may be an addend beside terms that have values, in a difference only if
`differences` holds; a sum of that kind is not divided. -/
inductive Exposed (R : Reading K) (atOnce : Expr → Prop) (differences : Prop) :
    Bool → Expr → Prop where
  | nan {sums : Bool} : Exposed R atOnce differences sums .nan
  | divided {sums : Bool} {n d : Expr} (divisor : R.Defined d) (zero : R.val d = 0)
      (dividend : R.Defined n ∧ R.val n ≠ 0 ∨ atOnce d) :
      Exposed R atOnce differences sums (.div n d)
  | reciprocal {sums : Bool} {b m : Expr} {k : ℤ} (base : R.Defined b) (zero : R.val b = 0)
      (exponent : R.Defined m) (value : R.val m = k) (negative : k < 0) :
      Exposed R atOnce differences sums (.pow b m)
  | quotient {sums : Bool} {n d : Expr} (h : Exposed R atOnce differences false n)
      (scalar : d.IsScalar) : Exposed R atOnce differences sums (.div n d)
  | multiple {sums : Bool} {xs ys : List Expr} {x : Expr} (split : xs.Perm (x :: ys))
      (h : Exposed R atOnce differences sums x) (others : ∀ y ∈ ys, y.IsNonzeroNumeral) :
      Exposed R atOnce differences sums (.node .multiply xs)
  | sum {xs ys : List Expr} {x : Expr} (split : xs.Perm (x :: ys))
      (h : Exposed R atOnce differences true x) (others : ∀ y ∈ ys, R.Defined y) :
      Exposed R atOnce differences true (.node .add xs)
  | minuend (any : differences) {a b : Expr} (h : Exposed R atOnce differences true a)
      (other : R.Defined b) : Exposed R atOnce differences true (.sub a b)
  | subtrahend (any : differences) {a b : Expr} (other : R.Defined a)
      (h : Exposed R atOnce differences true b) : Exposed R atOnce differences true (.sub a b)

end Reading

/-! ## Lists and scalars -/

/-- Where a list is another one with an element put in, its head is that element or a part of the
other list. -/
theorem perm_cons_cases {α : Type*} {a x : α} {rest ys : List α}
    (h : (a :: rest).Perm (x :: ys)) :
    (a = x ∧ rest.Perm ys) ∨ ∃ zs, ys.Perm (a :: zs) ∧ rest.Perm (x :: zs) := by
  rcases List.mem_cons.mp (h.mem_iff.mp List.mem_cons_self) with rfl | inside
  · exact .inl ⟨rfl, h.cons_inv⟩
  · obtain ⟨before, after, rfl⟩ := List.append_of_mem inside
    have middle : (before ++ a :: after).Perm (a :: (before ++ after)) := List.perm_middle
    have swapped : (a :: rest).Perm (a :: x :: (before ++ after)) :=
      (h.trans (middle.cons x)).trans (List.Perm.swap a x _)
    exact .inr ⟨before ++ after, middle, swapped.cons_inv⟩

theorem perm_append_cases {α : Type*} {x : α} {as bs zs : List α}
    (h : (as ++ bs).Perm (x :: zs)) :
    (∃ rest, as.Perm (x :: rest) ∧ zs.Perm (rest ++ bs)) ∨
      ∃ rest, bs.Perm (x :: rest) ∧ zs.Perm (as ++ rest) := by
  rcases List.mem_append.mp (h.mem_iff.mpr List.mem_cons_self) with inside | inside
  · obtain ⟨before, after, rfl⟩ := List.append_of_mem inside
    refine .inl ⟨before ++ after, List.perm_middle, ?_⟩
    exact (h.symm.trans (List.perm_middle.append_right bs)).cons_inv
  · obtain ⟨before, after, rfl⟩ := List.append_of_mem inside
    refine .inr ⟨before ++ after, List.perm_middle, ?_⟩
    have moved := h.symm.trans (List.perm_middle.append_left as)
    exact (moved.trans List.perm_middle).cons_inv

namespace Expr

theorem IsNonzeroNumeral.factors {e : Expr} (h : e.IsNonzeroNumeral) : e.factors = [e] := by
  obtain ⟨r, -, rfl⟩ := h
  rfl

theorem IsNonzeroNumeral.isScalar {e : Expr} (h : e.IsNonzeroNumeral) : e.IsScalar := by
  intro f member
  rw [h.factors] at member
  exact List.mem_singleton.mp member ▸ h

theorem isNonzeroNumeral_one : one.IsNonzeroNumeral := ⟨1, one_ne_zero, rfl⟩

theorem isScalar_product {xs : List Expr} (h : ∀ x ∈ xs, x.IsNonzeroNumeral) :
    (product xs).IsScalar := by
  match xs, h with
  | [], _ => exact isNonzeroNumeral_one.isScalar
  | [x], h => exact (h x List.mem_cons_self).isScalar
  | _ :: _ :: _, h => exact h

theorem IsScalar.times {a b : Expr} (ha : a.IsScalar) (hb : b.IsScalar) : (a.times b).IsScalar := by
  refine isScalar_product fun x member => ?_
  rcases List.mem_append.mp (List.mem_of_mem_filter member) with left | right
  · exact ha x left
  · exact hb x right

/-- A scalar is a numeral, or a product of numerals. -/
theorem IsScalar.cases {e : Expr} (h : e.IsScalar) :
    e.IsNonzeroNumeral ∨ ∃ xs, e = .node .multiply xs ∧ ∀ x ∈ xs, x.IsNonzeroNumeral := by
  unfold IsScalar factors at h
  split at h
  · rename_i xs
    exact .inr ⟨xs, rfl, h⟩
  · exact .inl (h e (List.mem_singleton_self e))

end Expr

namespace Reading

variable {K : Type*} [Field K] {R : Reading K}

theorem defined_of_isNonzeroNumeral {e : Expr} (h : e.IsNonzeroNumeral) : R.Defined e := by
  obtain ⟨r, -, rfl⟩ := h
  rfl

namespace Exposed

variable {atOnce : Expr → Prop} {differences : Prop} {sums : Bool} {e : Expr}

/-- A division that is no addend may be read as one of a sum with itself as its only addend. -/
theorem inSum (h : R.Exposed atOnce differences sums e) : R.Exposed atOnce differences true e := by
  induction h with
  | nan => exact .nan
  | divided divisor zero dividend => exact .divided divisor zero dividend
  | reciprocal base zero exponent value negative =>
    exact .reciprocal base zero exponent value negative
  | quotient h scalar => exact .quotient h scalar
  | multiple split _ others ih => exact .multiple split ih others
  | sum split h others => exact .sum split h others
  | minuend any h other => exact .minuend any h other
  | subtrahend any other h => exact .subtrahend any other h

/-- What holds a division by zero has no value. -/
theorem not_defined [CharZero K] (h : R.Exposed atOnce differences sums e) : ¬R.Defined e := by
  induction h with
  | nan => nofun
  | divided divisor zero dividend =>
    intro defined
    exact ((defined_div _ _).mp defined).2.2 zero
  | reciprocal base zero exponent value negative =>
    intro defined
    obtain ⟨-, -, m, same, nonneg⟩ := (defined_pow _ _).mp defined
    rw [value, Int.cast_inj] at same
    have := nonneg zero
    omega
  | quotient _ scalar ih => exact fun defined => ih ((defined_div _ _).mp defined).1
  | multiple split _ others ih =>
    intro defined
    exact ih ((defined_node_multiply _).mp defined _ (split.mem_iff.mpr List.mem_cons_self))
  | sum split _ others ih =>
    intro defined
    exact ih ((defined_node_add _).mp defined _ (split.mem_iff.mpr List.mem_cons_self))
  | minuend any _ other ih => exact fun defined => ih ((defined_sub _ _).mp defined).1
  | subtrahend any other _ ih => exact fun defined => ih ((defined_sub _ _).mp defined).2

/-- Of the numerals only the undefined one counts as a division by zero. -/
theorem eq_nan_of_number {x : Numeral}
    (h : R.Exposed atOnce differences sums (.number x)) : x = .nan := by
  cases h
  rfl

theorem eq_nan_of_isNumber (h : R.Exposed atOnce differences sums e) (number : e.isNumber = true) :
    e = .nan := by
  cases e with
  | number x => rw [h.eq_nan_of_number, Expr.nan]
  | complex _ | ident _ | call _ _ | node _ _ => cases number

theorem mono {later : Expr → Prop} {any : Prop} (next : ∀ d, atOnce d → later d)
    (allowed : differences → any) (h : R.Exposed atOnce differences sums e) :
    R.Exposed later any sums e := by
  induction h with
  | nan => exact .nan
  | divided divisor zero dividend => exact .divided divisor zero (dividend.imp_right (next _))
  | reciprocal base zero exponent value negative =>
    exact .reciprocal base zero exponent value negative
  | quotient _ scalar ih => exact .quotient ih scalar
  | multiple split _ others ih => exact .multiple split ih others
  | sum split _ others ih => exact .sum split ih others
  | minuend some _ other ih => exact .minuend (allowed some) ih other
  | subtrahend some other _ ih => exact .subtrahend (allowed some) other ih

/-! ## Built sums and products -/

theorem of_product {xs ys : List Expr} {x : Expr} (split : xs.Perm (x :: ys))
    (h : R.Exposed atOnce differences sums x) (others : ∀ y ∈ ys, y.IsNonzeroNumeral) :
    R.Exposed atOnce differences sums (.product xs) := by
  match xs, split with
  | [], split => exact absurd split.symm.eq_nil (List.cons_ne_nil _ _)
  | [y], split =>
    obtain ⟨rfl, -⟩ := List.cons.inj (List.perm_singleton.mp split.symm)
    exact h
  | _ :: _ :: _, split => exact .multiple split h others

theorem of_sum {xs ys : List Expr} {x : Expr} (split : xs.Perm (x :: ys))
    (h : R.Exposed atOnce differences true x) (others : ∀ y ∈ ys, R.Defined y) :
    R.Exposed atOnce differences true (.sum xs) := by
  match xs, split with
  | [], split => exact absurd split.symm.eq_nil (List.cons_ne_nil _ _)
  | [y], split =>
    obtain ⟨rfl, -⟩ := List.cons.inj (List.perm_singleton.mp split.symm)
    exact h
  | _ :: _ :: _, split => exact .sum split h others

theorem exists_addend (h : R.Exposed atOnce differences true e) :
    ∃ x ys, e.addends.Perm (x :: ys) ∧ R.Exposed atOnce differences true x ∧
      ∀ y ∈ ys, R.Defined y := by
  unfold Expr.addends
  split
  · cases h with
    | sum split h others => exact ⟨_, _, split, h, others⟩
  · exact ⟨e, [], List.Perm.refl _, h, List.forall_mem_nil _⟩

theorem exists_factor (h : R.Exposed atOnce differences sums e) :
    ∃ x ys, e.factors.Perm (x :: ys) ∧ R.Exposed atOnce differences sums x ∧
      ∀ y ∈ ys, y.IsNonzeroNumeral := by
  unfold Expr.factors
  split
  · cases h with
    | multiple split h others => exact ⟨_, _, split, h, others⟩
  · exact ⟨e, [], List.Perm.refl _, h, List.forall_mem_nil _⟩

theorem not_isOne (h : R.Exposed atOnce differences sums e) : e.isOne = false := by
  cases h <;> rfl

theorem not_isZero (h : R.Exposed atOnce differences sums e) : e.isZero = false := by
  cases h <;> rfl

/-- Ones among the factors may go. -/
theorem drop_ones {xs ys : List Expr} {x : Expr} (split : xs.Perm (x :: ys))
    (h : R.Exposed atOnce differences sums x) (others : ∀ y ∈ ys, y.IsNonzeroNumeral) :
    R.Exposed atOnce differences sums (.product (xs.filter fun x => !x.isOne)) := by
  have kept := split.filter fun x => !x.isOne
  rw [List.filter_cons, h.not_isOne] at kept
  exact of_product kept h fun y member => others y (List.mem_of_mem_filter member)

/-- A multiple of it, as one flat product. -/
theorem times (h : R.Exposed atOnce differences sums e) {a : Expr} (scalar : a.IsScalar) :
    R.Exposed atOnce differences sums (e.times a) := by
  obtain ⟨x, ys, split, inner, others⟩ := h.exists_factor
  exact drop_ones (split.append_right a.factors) inner
    (List.forall_mem_append.mpr ⟨others, scalar⟩)

theorem times_left (h : R.Exposed atOnce differences sums e) {a : Expr} (scalar : a.IsScalar) :
    R.Exposed atOnce differences sums (a.times e) := by
  obtain ⟨x, ys, split, inner, others⟩ := h.exists_factor
  have moved : (a.factors ++ e.factors).Perm (x :: (a.factors ++ ys)) :=
    (split.append_left _).trans List.perm_middle
  exact drop_ones moved inner (List.forall_mem_append.mpr ⟨scalar, others⟩)

/-! ## Signs -/

theorem negateFactors {xs ys : List Expr} {x : Expr} (split : xs.Perm (x :: ys))
    (h : R.Exposed atOnce differences sums x) (others : ∀ y ∈ ys, y.IsNonzeroNumeral) :
    ∃ zs, (Expr.negateFactors xs).Perm (x :: zs) ∧ ∀ z ∈ zs, z.IsNonzeroNumeral := by
  unfold Expr.negateFactors
  split
  · rename_i value rest
    rcases perm_cons_cases split with ⟨rfl, remaining⟩ | ⟨zs, numeral, remaining⟩
    · rw [h.eq_nan_of_number]
      exact ⟨ys, remaining.cons _, others⟩
    · have units := fun y member => others y (numeral.mem_iff.mpr member)
      obtain ⟨⟨r, nonzero, same⟩, later⟩ := List.forall_mem_cons.mp units
      rw [Expr.number.injEq] at same
      split
      · exact ⟨zs, remaining, later⟩
      · refine ⟨.number value.neg :: zs, (remaining.cons _).trans (List.Perm.swap _ _ _), ?_⟩
        exact List.forall_mem_cons.mpr ⟨⟨-r, neg_ne_zero.mpr nonzero, by rw [same]; rfl⟩, later⟩
  · refine ⟨.ofInt (-1) :: ys, (split.cons _).trans (List.Perm.swap _ _ _), ?_⟩
    exact List.forall_mem_cons.mpr ⟨⟨-1, by norm_num, rfl⟩, others⟩

theorem negate (h : R.Exposed atOnce differences sums e) :
    R.Exposed atOnce differences sums e.negate := by
  have opposite {s : Bool} {a : Expr} (ha : R.Exposed atOnce differences s a) :
      R.Exposed atOnce differences s (.product [.ofInt (-1), a]) :=
    .multiple (List.Perm.swap _ _ _) ha
      (List.forall_mem_singleton.mpr ⟨-1, by norm_num, rfl⟩)
  induction h with
  | nan => exact .nan
  | divided divisor zero dividend =>
    refine .divided divisor zero (dividend.imp_left fun ⟨defined, nonzero⟩ => ?_)
    exact ⟨defined_negate defined, by rw [val_negate defined]; exact neg_ne_zero.mpr nonzero⟩
  | reciprocal base zero exponent value negative =>
    exact opposite (.reciprocal base zero exponent value negative)
  | quotient _ scalar ih => exact .quotient ih scalar
  | multiple split h others =>
    obtain ⟨zs, moved, units⟩ := negateFactors split h others
    exact of_product moved h units
  | sum split h others => exact opposite (.sum split h others)
  | minuend any h other => exact opposite (.minuend any h other)
  | subtrahend any other h => exact opposite (.subtrahend any other h)

theorem unsigned (h : R.Exposed atOnce differences sums e) :
    R.Exposed atOnce differences sums e.unsigned := by
  have stripped {s : Bool} {a : Expr} (ha : R.Exposed atOnce differences s a) :
      R.Exposed atOnce differences s (if a.isNegative then a.negate else a) := by
    split
    · exact ha.negate
    · exact ha
  induction h with
  | nan => exact .nan
  | divided divisor zero dividend =>
    rw [Expr.div, Expr.unsigned]
    split
    · rename_i negative
      refine .divided divisor zero (dividend.imp_left fun number => ?_)
      obtain ⟨defined, nonzero⟩ := number
      obtain ⟨kept, value⟩ := unsigned_spec defined
      refine ⟨kept, ?_⟩
      rw [value, if_pos negative]
      exact neg_ne_zero.mpr nonzero
    · exact .divided divisor zero dividend
  | reciprocal base zero exponent value negative =>
    exact stripped (.reciprocal base zero exponent value negative)
  | quotient h scalar ih =>
    rw [Expr.div, Expr.unsigned]
    split
    · exact .quotient ih scalar
    · exact .quotient h scalar
  | multiple split h others => exact stripped (.multiple split h others)
  | sum split h others => exact stripped (.sum split h others)
  | minuend any h other => exact stripped (.minuend any h other)
  | subtrahend any other h => exact stripped (.subtrahend any other h)

end Exposed

/-! ## Rules at every node -/

/-- What a rule has to do at each kind of node so that, applied everywhere, it leaves `T` of a tree
with an exposed division. The rule is only ever applied where `P` holds. -/
structure Exposure (R : Reading K) (rule : Expr → Step) (P : Expr → Prop) (atOnce : Expr → Prop)
    (differences : Prop) (T : Bool → Expr → Prop) : Prop where
  inSum : ∀ {e}, T false e → T true e
  nan : T false .nan
  numeral : ∀ x, (rule (.number x)).expr = .number x
  scalars : ∀ {xs}, (∀ x ∈ xs, x.IsNonzeroNumeral) → (rule (.node .multiply xs)).expr.IsScalar
  keeps : ∀ e, P e → R.Keeps e (rule e).expr
  divided : ∀ {n d}, P (.div n d) → R.ZeroDivided n d → T false (rule (.div n d)).expr
  atOnce : ∀ {n d}, R.Defined d → atOnce d → R.Defined (everywhere rule d).expr →
    R.val (everywhere rule d).expr = 0 → T false (rule (.div n (everywhere rule d).expr)).expr
  reciprocal : ∀ {b m} {k : ℤ}, R.Defined b → R.val b = 0 → R.Defined m → R.val m = k → k < 0 →
    T false (rule (.pow b m)).expr
  quotient : ∀ {n d}, P (.div n d) → T false n → d.IsScalar → T false (rule (.div n d)).expr
  multiple : ∀ {s xs ys x}, xs.Perm (x :: ys) → T s x → (∀ y ∈ ys, y.IsNonzeroNumeral) →
    T s (rule (.node .multiply xs)).expr
  sum : ∀ {xs ys x}, xs.Perm (x :: ys) → T true x → (∀ y ∈ ys, R.Defined y) →
    T true (rule (.node .add xs)).expr
  minuend : differences → ∀ {a b}, T true a → R.Defined b → T true (rule (.sub a b)).expr
  subtrahend : differences → ∀ {a b}, R.Defined a → T true b → T true (rule (.sub a b)).expr

namespace Exposure

variable {rule : Expr → Step} {P : Expr → Prop} {atOnce : Expr → Prop} {differences : Prop}
  {T : Bool → Expr → Prop}

theorem isNonzeroNumeral (here : R.Exposure rule P atOnce differences T) {e : Expr}
    (h : e.IsNonzeroNumeral) : (everywhere rule e).expr = e := by
  obtain ⟨r, -, rfl⟩ := h
  exact here.numeral _

theorem map_numerals (here : R.Exposure rule P atOnce differences T) {xs : List Expr}
    (h : ∀ x ∈ xs, x.IsNonzeroNumeral) : (xs.map fun x => (everywhere rule x).expr) = xs :=
  (List.map_congr_left fun x member => here.isNonzeroNumeral (h x member)).trans (List.map_id xs)

theorem isScalar (here : R.Exposure rule P atOnce differences T) {e : Expr} (h : e.IsScalar) :
    (everywhere rule e).expr.IsScalar := by
  rcases h.cases with numeral | ⟨xs, rfl, numerals⟩
  · rw [here.isNonzeroNumeral numeral]
    exact h
  · rw [everywhere_node, here.map_numerals numerals]
    exact here.scalars numerals

/-- The step from one node to the whole tree, by induction on what exposes the division. -/
theorem everywhere (here : R.Exposure rule P atOnce differences T) {sums : Bool} {e : Expr}
    (visits : Visits rule P e) (h : R.Exposed atOnce differences sums e) :
    T sums (everywhere rule e).expr := by
  have weaken {s : Bool} {a : Expr} (ha : T false a) : T s a := by
    cases s with
    | false => exact ha
    | true => exact here.inSum ha
  have parts {op : Operator} {xs : List Expr} (below : Visits rule P (.node op xs)) :
      (∀ x ∈ xs, Visits rule P x) ∧
        P (.node op (xs.map fun x => (SymbolicAlgebra.everywhere rule x).expr)) := by
    obtain ⟨operands, own⟩ := below
    rw [everywhereAll_fst] at own
    exact ⟨(visitsAll_iff xs).mp operands, own⟩
  have kept {a : Expr} (below : Visits rule P a) :
      R.Keeps a (SymbolicAlgebra.everywhere rule a).expr :=
    everywhere_keeps_of_visits here.keeps below
  induction h with
  | nan => exact weaken (here.numeral _ ▸ here.nan)
  | @divided _ n d divisor zero dividend =>
    obtain ⟨below, own⟩ := parts visits
    obtain ⟨upper, lower⟩ := List.forall_mem_cons.mp below
    obtain ⟨defined, value⟩ := kept (lower d List.mem_cons_self) divisor
    rw [Expr.div, everywhere_node]
    rcases dividend with ⟨number, nonzero⟩ | seen
    · obtain ⟨numberDefined, same⟩ := kept upper number
      exact weaken (here.divided own ⟨numberDefined, defined, by rwa [same], by rw [value, zero]⟩)
    · exact weaken (here.atOnce divisor seen defined (by rw [value, zero]))
  | @reciprocal _ b m k base zero exponent value negative =>
    obtain ⟨below, -⟩ := parts visits
    obtain ⟨first, second⟩ := List.forall_mem_cons.mp below
    obtain ⟨baseDefined, baseValue⟩ := kept first base
    obtain ⟨exponentDefined, exponentValue⟩ := kept (second m List.mem_cons_self) exponent
    rw [Expr.pow, everywhere_node]
    exact weaken (here.reciprocal baseDefined (by rw [baseValue, zero]) exponentDefined
      (by rw [exponentValue, value]) negative)
  | quotient _ scalar ih =>
    obtain ⟨below, own⟩ := parts visits
    rw [Expr.div, everywhere_node]
    exact weaken (here.quotient own (ih (below _ List.mem_cons_self)) (here.isScalar scalar))
  | @multiple s xs ys x split _ others ih =>
    obtain ⟨below, -⟩ := parts visits
    have moved := split.map fun x => (SymbolicAlgebra.everywhere rule x).expr
    rw [List.map_cons, here.map_numerals others] at moved
    rw [everywhere_node]
    exact here.multiple moved (ih (below x (split.mem_iff.mpr List.mem_cons_self))) others
  | @sum xs ys x split _ others ih =>
    obtain ⟨below, -⟩ := parts visits
    obtain ⟨inside, rest⟩ := List.forall_mem_cons.mp fun z member =>
      below z (split.mem_iff.mpr member)
    rw [everywhere_node]
    refine here.sum (split.map _) (ih inside) fun z member => ?_
    obtain ⟨y, among, rfl⟩ := List.mem_map.mp member
    exact (kept (rest y among) (others y among)).1
  | @minuend any a b _ other ih =>
    obtain ⟨below, -⟩ := parts visits
    obtain ⟨first, second⟩ := List.forall_mem_cons.mp below
    rw [Expr.sub, everywhere_node]
    exact here.minuend any (ih first) (kept (second b List.mem_cons_self) other).1
  | @subtrahend any a b other _ ih =>
    obtain ⟨below, -⟩ := parts visits
    obtain ⟨first, second⟩ := List.forall_mem_cons.mp below
    rw [Expr.sub, everywhere_node]
    exact here.subtrahend any (kept first other).1 (ih (second b List.mem_cons_self))

end Exposure

end Reading

end SymbolicAlgebra
