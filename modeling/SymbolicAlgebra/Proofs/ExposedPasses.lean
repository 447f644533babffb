import SymbolicAlgebra.Proofs.Exposure
import SymbolicAlgebra.Proofs.Rounds

/-! An exposed division by zero through the passes of a round that only rearrange: differences become
sums, nested nodes flat ones, and a product is spread over a sum. -/
namespace SymbolicAlgebra

namespace Reading

variable {K : Type*} [Field K] {R : Reading K} {atOnce later : Expr → Prop} {differences : Prop}
  {sums : Bool}

theorem ZeroDivided.exposed {n d : Expr} (h : R.ZeroDivided n d) :
    R.Exposed atOnce differences sums (.div n d) :=
  .divided h.divisor h.zero (.inl ⟨h.dividend, h.nonzero⟩)

/-! ## Rules on products and sums -/

/-- A rule that leaves numerals, quotients and negative powers as they are is looked at where it
meets products, sums and differences. -/
structure Rearranging (R : Reading K) (rule : Expr → Step) (atOnce later : Expr → Prop)
    (differences some : Prop) : Prop where
  numeral : ∀ x, (rule (.number x)).expr = .number x := by intro _; rfl
  quotients : ∀ n d, (rule (.div n d)).expr = .div n d := by intro _ _; rfl
  powers : ∀ {b m} {k : ℤ}, R.val m = k → k < 0 → (rule (.pow b m)).expr = .pow b m := by
    intro _ _ _ _ _; rfl
  keeps : ∀ e, R.Keeps e (rule e).expr
  next : ∀ d, atOnce d → later (everywhere rule d).expr
  scalars : ∀ {xs}, (∀ x ∈ xs, x.IsNonzeroNumeral) → (rule (.node .multiply xs)).expr.IsScalar
  multiple : ∀ {s xs ys x}, xs.Perm (x :: ys) → R.Exposed later some s x →
    (∀ y ∈ ys, y.IsNonzeroNumeral) → R.Exposed later some s (rule (.node .multiply xs)).expr
  sum : ∀ {xs ys x}, xs.Perm (x :: ys) → R.Exposed later some true x →
    (∀ y ∈ ys, R.Defined y) → R.Exposed later some true (rule (.node .add xs)).expr
  minuend : differences → ∀ {a b}, R.Exposed later some true a → R.Defined b →
    R.Exposed later some true (rule (.sub a b)).expr
  subtrahend : differences → ∀ {a b}, R.Defined a → R.Exposed later some true b →
    R.Exposed later some true (rule (.sub a b)).expr

theorem Rearranging.exposure {rule : Expr → Step} {some : Prop}
    (h : R.Rearranging rule atOnce later differences some) :
    R.Exposure rule (fun _ => True) atOnce differences (R.Exposed later some) where
  inSum := Exposed.inSum
  nan := .nan
  numeral := h.numeral
  scalars := h.scalars
  keeps e _ := h.keeps e
  divided _ quotient := by
    rw [h.quotients]
    exact quotient.exposed
  atOnce _ seen defined zero := by
    rw [h.quotients]
    exact .divided defined zero (.inr (h.next _ seen))
  reciprocal base zero exponent value negative := by
    rw [h.powers value negative]
    exact .reciprocal base zero exponent value negative
  quotient _ dividend scalar := by
    rw [h.quotients]
    exact .quotient dividend scalar
  multiple := h.multiple
  sum := h.sum
  minuend := h.minuend
  subtrahend := h.subtrahend

/-! ## Differences as sums -/

theorem Exposed.sum_of_difference {a b : Expr} (ha : R.Exposed atOnce differences true a)
    (hb : R.Defined b) :
    R.Exposed atOnce differences true (differenceToSum (.sub a b)).expr := by
  obtain ⟨x, ys, split, h, others⟩ := ha.exists_addend
  refine .sum (split.append_right [b.negate]) h fun y member => ?_
  rcases List.mem_append.mp member with left | right
  · exact others y left
  · exact List.mem_singleton.mp right ▸ defined_negate hb

theorem Exposed.sum_of_subtrahend {a b : Expr} (ha : R.Defined a)
    (hb : R.Exposed atOnce differences true b) :
    R.Exposed atOnce differences true (differenceToSum (.sub a b)).expr :=
  .sum (List.perm_append_comm : (a.addends ++ [b.negate]).Perm (b.negate :: a.addends)) hb.negate
    ((defined_addends a).mpr ha)

theorem rearranging_toSums (next : ∀ d, atOnce d → later (toSums d).expr) :
    R.Rearranging differenceToSum atOnce later True False where
  keeps := differenceToSum_keeps
  next := next
  scalars numerals := numerals
  multiple := .multiple
  sum := .sum
  minuend _ _ _ h other := Exposed.sum_of_difference h other
  subtrahend _ _ _ other h := Exposed.sum_of_subtrahend other h

/-! ## Flat nodes -/

theorem Exposed.flatten_multiple {xs ys : List Expr} {x : Expr} (split : xs.Perm (x :: ys))
    (h : R.Exposed atOnce differences sums x) (others : ∀ y ∈ ys, y.IsNonzeroNumeral) :
    R.Exposed atOnce differences sums (flattenNode (.node .multiply xs)).expr := by
  obtain ⟨y, zs, parts, inner, units⟩ := h.exists_factor
  have alone : ys.flatMap (spliced .multiply) = ys := by
    rw [← splice_eq_flatMap]
    refine splice_of_flat fun z member => ?_
    obtain ⟨r, -, rfl⟩ := others z member
    rfl
  have moved := split.flatMap (f := spliced .multiply) fun _ _ => List.Perm.refl _
  rw [List.flatMap_cons, spliced_multiply, alone] at moved
  rw [flattenNode_multiply, splice_eq_flatMap]
  refine of_product (moved.trans (parts.append_right ys)) inner fun z member => ?_
  rcases List.mem_append.mp member with left | right
  · exact units z left
  · exact others z right

theorem Exposed.flatten_sum {xs ys : List Expr} {x : Expr} (split : xs.Perm (x :: ys))
    (h : R.Exposed atOnce differences true x) (others : ∀ y ∈ ys, R.Defined y) :
    R.Exposed atOnce differences true (flattenNode (.node .add xs)).expr := by
  obtain ⟨y, zs, parts, inner, rest⟩ := h.exists_addend
  have moved := split.flatMap (f := spliced .add) fun _ _ => List.Perm.refl _
  rw [List.flatMap_cons, spliced_add] at moved
  rw [flattenNode_add, splice_eq_flatMap]
  refine of_sum (moved.trans (parts.append_right _)) inner fun z member => ?_
  rcases List.mem_append.mp member with left | right
  · exact rest z left
  · rw [← splice_eq_flatMap] at right
    exact (splice_add_spec others).1 z right

theorem rearranging_flatten (laws : R.Splices) (next : ∀ d, atOnce d → later (flatten d).expr) :
    R.Rearranging flattenNode atOnce later False False where
  keeps := flattenNode_keeps laws
  next := next
  scalars {xs} numerals := by
    have flat : splice .multiply xs = xs := splice_of_flat fun x member => by
      obtain ⟨r, -, rfl⟩ := numerals x member
      rfl
    rw [flattenNode_multiply, flat]
    exact Expr.isScalar_product numerals
  multiple := Exposed.flatten_multiple
  sum := Exposed.flatten_sum
  minuend := nofun
  subtrahend := nofun

/-! ## Calls -/

/-- Nothing but numerals without an imaginary part, identifiers and the operations of a field has a
value. -/
structure Plain (R : Reading K) : Prop where
  only : R.OnlyArithmetic
  real : R.unit? = none
  call : ∀ f vs, R.call f vs = none

omit [Field K] in
theorem ofAssignment_plain (ident : String → K) : (ofAssignment ident).Plain where
  only := ofAssignment_onlyArithmetic ident
  real := rfl
  call _ _ := rfl

theorem Plain.not_call (plain : R.Plain) {f : NamedFunction} {xs : List Expr} :
    ¬R.Defined (.call f xs) := by
  intro h
  have some := ((defined_call f xs).mp h).2
  rw [plain.call] at some
  cases some

theorem Plain.reciprocalCall? (plain : R.Plain) {e : Expr} (h : R.Defined e) :
    e.reciprocalCall? = none := by
  cases e with
  | call f xs => exact absurd h plain.not_call
  | _ => rfl

theorem splitAtReciprocal_of_none {xs : List Expr} (h : ∀ x ∈ xs, x.reciprocalCall? = none) :
    splitAtReciprocal xs = none := by
  induction xs with
  | nil => rfl
  | cons x xs ih =>
    obtain ⟨first, rest⟩ := List.forall_mem_cons.mp h
    rw [splitAtReciprocal, first]
    dsimp only
    rw [ih rest]
    rfl

/-- Without calls a divisor stays where it is. -/
theorem Plain.normalizeCall_div (plain : R.Plain) {n d : Expr} (h : R.Defined d) :
    (normalizeCall (.div n d)).expr = .div n (.product d.factors) := by
  show (raiseReciprocal n d).expr = _
  rw [raiseReciprocal, splitAtReciprocal_of_none fun x member =>
    plain.reciprocalCall? ((defined_factors d).mpr h x member)]
  rfl

theorem normalizeCalls_of_flat (plain : R.Plain) {e : Expr} (flat : e.AllParts Expr.IsFlat)
    (h : R.Defined e) : (normalizeCalls e).expr = e := by
  induction e with
  | number x => rfl
  | complex z => rfl
  | ident name => rfl
  | call f xs _ => exact absurd h plain.not_call
  | node op xs ih =>
    have operands := ((defined_node op xs).mp h).1
    have same : (xs.map fun x => (everywhere normalizeCall x).expr) = xs :=
      (List.map_congr_left fun x member =>
        ih x member (flat.operands x member) (operands x member)).trans (List.map_id xs)
    rw [normalizeCalls, everywhere_node, same]
    cases op with
    | divide =>
      match xs, flat, operands with
      | [n, d], flat, operands =>
        obtain ⟨-, divisor⟩ := List.forall_mem_cons.mp operands
        have whole : Expr.product d.factors = d :=
          product_factors (flat.operands d (by simp)).here
        exact (plain.normalizeCall_div (divisor d List.mem_cons_self)).trans (by rw [whole]; rfl)
      | [], _, _ | [_], _, _ | _ :: _ :: _ :: _, _, _ => rfl
    | _ => rfl

theorem exposure_normalizeCalls [CharZero K] (plain : R.Plain) (laws : R.EvaluationLaws)
    (flat : ∀ d, atOnce d → d.AllParts Expr.IsFlat)
    (next : ∀ d, atOnce d → later (normalizeCalls d).expr) :
    R.Exposure normalizeCall (fun _ => True) atOnce False (R.Exposed later False) where
  inSum := Exposed.inSum
  nan := .nan
  numeral _ := rfl
  scalars numerals := numerals
  keeps e _ := normalizeCall_keeps laws e
  divided {n d} _ h := by
    rw [plain.normalizeCall_div h.divisor]
    exact .divided (by simpa using h.divisor) (by simpa using h.zero)
      (.inl ⟨h.dividend, h.nonzero⟩)
  atOnce {n d} divisor seen _ zero := by
    have whole := flat d seen
    have known := next d seen
    have same : (everywhere normalizeCall d).expr = d := normalizeCalls_of_flat plain whole divisor
    rw [normalizeCalls, same] at known
    rw [same] at zero ⊢
    rw [plain.normalizeCall_div divisor, product_factors whole.here]
    exact .divided divisor zero (.inr known)
  reciprocal base zero exponent value negative := .reciprocal base zero exponent value negative
  quotient {n d} _ h scalar := by
    have defined : R.Defined d :=
      (defined_factors d).mp fun f member => defined_of_isNonzeroNumeral (scalar f member)
    rw [plain.normalizeCall_div defined]
    exact .quotient h (Expr.isScalar_product scalar)
  multiple := .multiple
  sum := .sum
  minuend := nofun
  subtrahend := nofun

/-! ## Powers of sums -/

variable [CharZero K]

/-- A negative power is not multiplied out. -/
theorem expandPower_of_negative (limit : Nat) {b m : Expr} {k : ℤ} (value : R.val m = k)
    (negative : k < 0) : (expandPower limit (.pow b m)).expr = .pow b m := by
  unfold expandPower
  split
  · rename_i terms exponent same
    cases same
    split
    · rename_i n found
      obtain ⟨rfl, two⟩ := Expr.eq_of_expandedPower? found
      have same : k = n := by
        rw [val_exact, Rat.cast_natCast] at value
        exact_mod_cast value.symm
      omega
    · rfl
  · rfl

theorem rearranging_expandPowers (limit : Nat)
    (next : ∀ d, atOnce d → later (everywhere (expandPower limit) d).expr) :
    R.Rearranging (expandPower limit) atOnce later False False where
  powers := expandPower_of_negative limit
  keeps := expandPower_keeps limit
  next := next
  scalars numerals := numerals
  multiple := .multiple
  sum := .sum
  minuend := nofun
  subtrahend := nofun

/-! ## Products over a sum -/

omit [CharZero K] in
theorem Exposed.foldl_times {acc : Expr} {xs : List Expr}
    (h : R.Exposed atOnce differences sums acc) (numerals : ∀ x ∈ xs, x.IsNonzeroNumeral) :
    R.Exposed atOnce differences sums (xs.foldl Expr.times acc) := by
  induction xs generalizing acc with
  | nil => exact h
  | cons x xs ih =>
    obtain ⟨first, rest⟩ := List.forall_mem_cons.mp numerals
    exact ih (h.times first.isScalar) rest

omit [CharZero K] in
theorem Exposed.timesAll {before after : List Expr} {t : Expr}
    (h : R.Exposed atOnce differences sums t) (front : ∀ x ∈ before, x.IsNonzeroNumeral)
    (back : ∀ x ∈ after, x.IsNonzeroNumeral) :
    R.Exposed atOnce differences sums (timesAll (before ++ t :: after)) := by
  have scalar {acc : Expr} {xs : List Expr} (first : acc.IsScalar)
      (numerals : ∀ x ∈ xs, x.IsNonzeroNumeral) : (xs.foldl Expr.times acc).IsScalar := by
    induction xs generalizing acc with
    | nil => exact first
    | cons x xs ih =>
      obtain ⟨here, rest⟩ := List.forall_mem_cons.mp numerals
      exact ih (first.times here.isScalar) rest
  cases before with
  | nil => exact h.foldl_times back
  | cons x before =>
    obtain ⟨here, rest⟩ := List.forall_mem_cons.mp front
    rw [List.cons_append, SymbolicAlgebra.timesAll, List.foldl_append, List.foldl_cons]
    exact (h.times_left (scalar here.isScalar rest)).foldl_times back

omit [CharZero K] in
/-- If the division is an addend of the sum, it is one of the sum of the products. -/
theorem Exposed.distribute_multiple {xs ys : List Expr} {x : Expr} (split : xs.Perm (x :: ys))
    (h : R.Exposed atOnce differences sums x) (others : ∀ y ∈ ys, y.IsNonzeroNumeral) :
    R.Exposed atOnce differences sums (distributeLoneSumNode (.node .multiply xs)).expr := by
  unfold distributeLoneSumNode
  dsimp only
  split
  · rename_i before terms after found
    split
    · have parts := eq_append_of_splitAtSum found
      have own : x = .node .add terms := by
        have member : .node .add terms ∈ x :: ys := split.mem_iff.mp (by rw [parts]; simp)
        rcases List.mem_cons.mp member with same | numeral
        · exact same.symm
        · obtain ⟨r, -, same⟩ := others _ numeral
          cases same
      subst own
      rw [parts] at split
      have numerals : ∀ y ∈ before ++ after, y.IsNonzeroNumeral := fun y member =>
        others y ((List.perm_middle.symm.trans split).cons_inv.mem_iff.mp member)
      obtain ⟨front, back⟩ := List.forall_mem_append.mp numerals
      have values : ∀ y ∈ before ++ after, R.Defined y := fun y member =>
        defined_of_isNonzeroNumeral (numerals y member)
      cases h with
      | sum inner h rest =>
        refine of_sum (inner.map _) (h.timesAll front back) fun z member => ?_
        obtain ⟨t, inside, rfl⟩ := List.mem_map.mp member
        refine (timesAll_spec fun f factor => ?_).1
        rcases List.mem_append.mp factor with left | right
        · exact values f (List.mem_append_left _ left)
        · rcases List.mem_cons.mp right with rfl | right
          · exact rest f inside
          · exact values f (List.mem_append_right _ right)
    · exact .multiple split h others
  · exact .multiple split h others

theorem splitAtSum_of_numerals {xs : List Expr} (h : ∀ x ∈ xs, x.IsNonzeroNumeral) :
    splitAtSum xs = none := by
  cases found : splitAtSum xs with
  | none => rfl
  | some parts =>
    obtain ⟨before, terms, after⟩ := parts
    rw [eq_append_of_splitAtSum found] at h
    obtain ⟨r, -, same⟩ := h (.node .add terms) (by simp)
    cases same

omit [CharZero K] in
theorem rearranging_distributeLoneSum
    (next : ∀ d, atOnce d → later (distributeLoneSum d).expr) :
    R.Rearranging distributeLoneSumNode atOnce later False False where
  keeps := distributeLoneSumNode_keeps
  next := next
  scalars {xs} numerals := by
    have none : splitAtSum xs = none := splitAtSum_of_numerals numerals
    unfold distributeLoneSumNode
    dsimp only
    rw [none]
    exact numerals
  multiple := Exposed.distribute_multiple
  sum := .sum
  minuend := nofun
  subtrahend := nofun

end Reading

end SymbolicAlgebra
