import SymbolicAlgebra.Proofs.Constructs

/-! What an expression is read back as from its text: the expression itself, except that a minus
sign goes into the factor it is written before. -/
namespace SymbolicAlgebra

open Reader

namespace Expr

/-- A node from its operands and what they are read back as. The sign of a product of minus one and
another factor is read as part of that factor. -/
def rereadNode (op : Operator) (xs ys : List Expr) : Expr :=
  match ys with
  | [y, z] => if op = .multiply ∧ isOpposite xs then z.negate else .node op [y, z]
  | ys => .node op ys

mutual

/-- What the text of an expression is read as. -/
def reread : Expr → Expr
  | .number x => .number x
  | .complex z => .complex z
  | .ident name => .ident name
  | .call f xs => .call f (rereadAll xs)
  | .node op xs => rereadNode op xs (rereadAll xs)

def rereadAll : List Expr → List Expr
  | [] => []
  | x :: xs => reread x :: rereadAll xs

end

theorem rereadAll_eq_map (xs : List Expr) : rereadAll xs = xs.map reread := by
  induction xs with
  | nil => rfl
  | cons x xs ih => rw [rereadAll, ih, List.map_cons]

theorem reread_node (op : Operator) (xs : List Expr) :
    reread (.node op xs) = rereadNode op xs (xs.map reread) := by
  rw [reread, rereadAll_eq_map]

theorem rereadNode_plain {op : Operator} {xs : List Expr} (plain : IsPlain op xs)
    (ys : List Expr) : rereadNode op xs ys = .node op ys := by
  have unsigned : ¬(op = .multiply ∧ isOpposite xs = true) := by
    rw [plain.sign]
    exact not_false
  unfold rereadNode
  split
  · rw [if_neg unsigned]
  · rfl

theorem binding_plain {op : Operator} {xs : List Expr} (plain : IsPlain op xs) :
    (Expr.node op xs).binding = op.binding := by
  have unsigned : ¬(op = .multiply ∧ isOpposite xs = true) := by
    rw [plain.sign]
    exact not_false
  rw [binding, if_neg unsigned]

theorem tokens_plain {op : Operator} {xs : List Expr} (plain : IsPlain op xs) :
    (Expr.node op xs).tokens =
      tokensBetween (.op op) (List.zipWith bracketedTokens (operandBrackets op xs)
        (xs.map tokens)) := by
  rw [tokens, tokensAll_eq_map]
  exact plain.tokens _ (List.length_map _)

/-! ## Bindings -/

/-- Only a bitwise operator binds as tightly as itself. -/
theorem isNode_of_bitwise {op : Operator} (bitwise : op = .bitAnd ∨ op = .bitOr ∨ op = .bitXor)
    {e : Expr} (same : e.binding = op.binding) : e.isNode op = true := by
  cases e with
  | number x =>
    rw [binding] at same
    split at same <;> rcases bitwise with rfl | rfl | rfl <;> cases same
  | complex z =>
    rw [binding] at same
    split at same
    · rcases bitwise with rfl | rfl | rfl <;> cases same
    · split at same <;> rcases bitwise with rfl | rfl | rfl <;> cases same
  | ident _ => rcases bitwise with rfl | rfl | rfl <;> cases same
  | call _ _ => rcases bitwise with rfl | rfl | rfl <;> cases same
  | node o xs =>
    rw [binding] at same
    split at same
    · rcases bitwise with rfl | rfl | rfl <;> cases same
    · rcases bitwise with rfl | rfl | rfl <;> cases o <;> first | rfl | cases same

/-- Of the trees that text is read as, only sums and differences bind as loosely as they do. -/
theorem isNode_of_sum {e : Expr} (written : Written e) (same : e.binding = .sum) :
    e.isNode .add = true ∨ e.isNode .subtract = true := by
  cases e with
  | number x =>
    rw [binding] at same
    split at same <;> cases same
  | complex z =>
    obtain ⟨r, rfl, -⟩ := written
    have real : (!Numeral.zero.isZero) = false := rfl
    simp only [binding, real, Bool.false_eq_true, ↓reduceIte] at same
    split at same <;> cases same
  | ident _ => cases same
  | call _ _ => cases same
  | node o xs =>
    rw [binding] at same
    split at same
    · cases same
    · cases o <;> first | exact .inl rfl | exact .inr rfl | cases same

/-! ## Operands -/

/-- The tokens of an expression are read as what it is read back as. Sums and differences go on
with further addends where they are not bracketed, and shifts with further shifts. -/
structure ReadsBack (e : Expr) : Prop where
  reads : Reads e.binding e.tokens e.reread
  run : Binding.sum.rank ≤ e.binding.rank →
    ∃ run, ReadsRun e.tokens run ∧ ofRun .add run = e.reread ∧
      (e.isNode .add = false → run = [e.reread])
  shifted : Binding.shift.rank ≤ e.binding.rank → ReadsShifted e.tokens e.reread

theorem ReadsBack.of_tight {e : Expr} (h : Reads e.binding e.tokens e.reread)
    (tight : Binding.product.rank ≤ e.binding.rank) : ReadsBack e where
  reads := h
  run _ := ⟨[e.reread], (h.loosen tight).run, rfl, fun _ => rfl⟩
  shifted _ := (h.loosen (le_trans (by decide) tight)).shifted

theorem ReadsBack.of_loose {e : Expr} (h : Reads e.binding e.tokens e.reread)
    (loose : e.binding.rank < Binding.shift.rank) : ReadsBack e where
  reads := h
  run tight := absurd (loose.trans_le (le_trans (by decide) tight)) (lt_irrefl _)
  shifted tight := absurd (loose.trans_le tight) (lt_irrefl _)

theorem ReadsBack.bracketed {e : Expr} (h : ReadsBack e) (b : Binding) :
    Reads b (.openParen :: (e.tokens ++ [.closeParen])) e.reread := by
  have inside : Reads .bitOr e.tokens e.reread := h.reads.loosen e.binding.one_le_rank
  have le : b.rank ≤ Binding.atom.rank := by
    cases b <;> decide
  exact (reads_bracketed inside).loosen le

/-- An operand is read at the level where all that binds looser is in brackets. -/
theorem ReadsBack.operand {e : Expr} (h : ReadsBack e) {b : Binding} {brackets : Bool}
    (looser : brackets = false → b.rank ≤ e.binding.rank) :
    Reads b (bracketedTokens brackets e.tokens) e.reread := by
  cases brackets with
  | true => exact h.bracketed b
  | false => exact h.reads.loosen (looser rfl)

theorem ReadsBack.looser {e : Expr} (h : ReadsBack e) (b : Binding) :
    Reads b (bracketedTokens (e.binding.looser b) e.tokens) e.reread :=
  h.operand fun tight => not_lt.mp (of_decide_eq_false tight)

/-- The first addend. -/
theorem ReadsBack.firstAddend {e : Expr} (h : ReadsBack e) :
    ReadsRun (bracketedTokens (addendBrackets true e) e.tokens) [e.reread] := by
  cases brackets : addendBrackets true e with
  | true => exact (h.bracketed .product).run
  | false =>
    have bare : e.binding.looser .sum = false ∧ e.isNode .add = false := by
      simpa [addendBrackets] using brackets
    obtain ⟨run, reads, -, single⟩ := h.run (not_lt.mp (of_decide_eq_false bare.1))
    rw [single bare.2] at reads
    exact reads

/-- A later addend. -/
theorem ReadsBack.laterAddend {e : Expr} (h : ReadsBack e) (written : Written e) :
    Reads .product (bracketedTokens (addendBrackets false e) e.tokens) e.reread := by
  refine h.operand fun brackets => ?_
  have bare : (e.binding.looser .sum = false ∧ e.isNode .add = false) ∧
      e.isNode .subtract = false := by
    simpa [addendBrackets] using brackets
  have tight : Binding.sum.rank ≤ e.binding.rank := not_lt.mp (of_decide_eq_false bare.1.1)
  have other : e.binding.rank ≠ Binding.sum.rank := by
    intro same
    rcases isNode_of_sum written (Binding.eq_of_rank same) with sum | difference
    · rw [bare.1.2] at sum
      cases sum
    · rw [bare.2] at difference
      cases difference
  exact lt_of_le_of_ne tight other.symm

/-- The left side of a difference. -/
theorem ReadsBack.minuend {e : Expr} (h : ReadsBack e) :
    ∃ run, ReadsRun (bracketedTokens (e.binding.looser .sum) e.tokens) run ∧
      ofRun .add run = e.reread := by
  cases brackets : e.binding.looser .sum with
  | true => exact ⟨[e.reread], (h.bracketed .product).run, rfl⟩
  | false =>
    obtain ⟨run, reads, same, -⟩ := h.run (not_lt.mp (of_decide_eq_false brackets))
    exact ⟨run, reads, same⟩

/-- The left side of a shift. -/
theorem ReadsBack.shiftee {e : Expr} (h : ReadsBack e) :
    ReadsShifted (bracketedTokens (e.binding.looser .shift) e.tokens) e.reread := by
  cases brackets : e.binding.looser .shift with
  | true => exact (h.bracketed .sum).shifted
  | false => exact h.shifted (not_lt.mp (of_decide_eq_false brackets))

/-- An operand of a bitwise operator is read one level further in. -/
theorem ReadsBack.bitwise {op : Operator} (bitwise : op = .bitAnd ∨ op = .bitOr ∨ op = .bitXor)
    {inner : Binding} (next : inner.rank = op.binding.rank + 1) {e : Expr} (h : ReadsBack e) :
    Reads inner
      (bracketedTokens (e.binding.looser op.binding || e.isNode op) e.tokens) e.reread := by
  refine h.operand fun brackets => ?_
  have bare : e.binding.looser op.binding = false ∧ e.isNode op = false := by
    simpa using brackets
  have tight : op.binding.rank ≤ e.binding.rank := not_lt.mp (of_decide_eq_false bare.1)
  have other : e.binding.rank ≠ op.binding.rank := by
    intro same
    rw [isNode_of_bitwise bitwise (Binding.eq_of_rank same)] at bare
    cases bare.2
  omega

theorem forall₂_operands {P : List Token → Expr → Prop} {brackets : Expr → Bool} {xs : List Expr}
    (each : ∀ x ∈ xs, P (bracketedTokens (brackets x) x.tokens) x.reread) :
    List.Forall₂ P (List.zipWith bracketedTokens (xs.map brackets) (xs.map tokens))
      (xs.map reread) := by
  induction xs with
  | nil => exact .nil
  | cons x xs ih =>
    have rest := ih fun y member => each y (List.mem_cons_of_mem _ member)
    exact .cons (each x List.mem_cons_self) rest

/-! ## Nodes -/

theorem two_le_of_takes {op : Operator} {count : Nat} (h : op.Takes count) : 2 ≤ count := by
  unfold Operator.Takes at h
  split at h <;> omega

theorem readsBack_bitwise {op : Operator} (bitwise : op = .bitAnd ∨ op = .bitOr ∨ op = .bitXor)
    (inner : Binding) (next : inner.rank = op.binding.rank + 1)
    (level : ∀ depth, atLevel depth op.binding = flatChain op (atLevel depth inner))
    {xs : List Expr} (plain : IsPlain op xs) (takes : op.Takes xs.length)
    (each : ∀ x ∈ xs, ReadsBack x) : ReadsBack (.node op xs) := by
  have operands : operandBrackets op xs =
      xs.map fun e => e.binding.looser op.binding || e.isNode op := by
    rcases bitwise with rfl | rfl | rfl <;> rfl
  have loose : op.binding.rank < Binding.shift.rank := by
    rcases bitwise with rfl | rfl | rfl <;> decide
  have parts := forall₂_operands (P := Reads inner) fun x member =>
    (each x member).bitwise bitwise next
  have two : 2 ≤ (xs.map reread).length := by
    rw [List.length_map]
    exact two_le_of_takes takes
  have chain := reads_chain level (by omega) parts two
  refine .of_loose ?_ (by rwa [binding_plain plain])
  rw [binding_plain plain, tokens_plain plain, operands, reread_node, rereadNode_plain plain]
  exact chain

theorem readsBack_product {xs : List Expr} (plain : IsPlain .multiply xs)
    (takes : Operator.multiply.Takes xs.length) (each : ∀ x ∈ xs, ReadsBack x) :
    ReadsBack (.node .multiply xs) := by
  have parts := forall₂_operands (P := Reads .sign) fun x member => (each x member).looser .sign
  have two : 2 ≤ (xs.map reread).length := by
    rw [List.length_map]
    exact two_le_of_takes takes
  have product := reads_product parts two
  refine .of_tight ?_ (by rw [binding_plain plain]; decide)
  rw [binding_plain plain, tokens_plain plain, reread_node, rereadNode_plain plain]
  exact product

theorem readsBack_quotient {op : Operator} (quotient : op = .divide ∨ op = .modulus) {a b : Expr}
    (plain : IsPlain op [a, b]) (left : ReadsBack a) (right : ReadsBack b) :
    ReadsBack (.node op [a, b]) := by
  have reads := reads_quotient quotient (left.looser .sign) (right.looser .sign)
  have product : op.binding = .product := by
    rcases quotient with rfl | rfl <;> rfl
  refine .of_tight ?_ (by rw [binding_plain plain, product])
  rw [binding_plain plain, tokens_plain plain, reread_node, rereadNode_plain plain, product]
  rcases quotient with rfl | rfl <;> exact reads

theorem readsBack_power {a b : Expr} (plain : IsPlain .power [a, b]) (left : ReadsBack a)
    (right : ReadsBack b) : ReadsBack (.node .power [a, b]) := by
  have exponent : Reads .sign _ b.reread := (right.looser .atom).loosen (by decide)
  have reads := reads_power (left.looser .atom) exponent
  refine .of_tight ?_ (by rw [binding_plain plain]; decide)
  rw [binding_plain plain, tokens_plain plain, reread_node, rereadNode_plain plain]
  exact reads

/-- A node that is read as a run of addends. -/
theorem readsBack_run {e : Expr} (run : List Expr) (level : e.binding = .sum)
    (reads : ReadsRun e.tokens run) (same : ofRun .add run = e.reread)
    (single : e.isNode .add = false → run = [e.reread]) : ReadsBack e := by
  have sum : Reads .sum e.tokens e.reread := by
    rw [← same]
    exact reads.reads
  constructor
  · rwa [level]
  · exact fun _ => ⟨run, reads, same, single⟩
  · exact fun _ => sum.shifted

theorem readsBack_sum {xs : List Expr} (plain : IsPlain .add xs)
    (takes : Operator.add.Takes xs.length) (written : ∀ x ∈ xs, Written x)
    (each : ∀ x ∈ xs, ReadsBack x) : ReadsBack (.node .add xs) := by
  match xs, two_le_of_takes takes with
  | x :: y :: ys, _ =>
    have later := forall₂_operands (P := Reads .product) fun z member =>
      (each z (List.mem_cons_of_mem x member)).laterAddend (written z (List.mem_cons_of_mem x member))
    have run := readsRun_sum (each x List.mem_cons_self).firstAddend later
    refine readsBack_run (x.reread :: (y :: ys).map reread) (binding_plain plain) ?_ ?_ nofun
    · rw [tokens_plain plain]
      exact run
    · rw [reread_node, rereadNode_plain plain]
      rfl

theorem readsBack_difference {a b : Expr} (plain : IsPlain .subtract [a, b]) (left : ReadsBack a)
    (right : ReadsBack b) : ReadsBack (.node .subtract [a, b]) := by
  obtain ⟨run, first, same⟩ := left.minuend
  have second : Reads .product (bracketedTokens (b.binding.noTighter .sum) b.tokens) b.reread :=
    right.operand fun brackets => not_le.mp (of_decide_eq_false brackets)
  have reads := readsRun_difference first second
  rw [same] at reads
  have read : (Expr.node .subtract [a, b]).reread = .sub a.reread b.reread := by
    rw [reread_node, rereadNode_plain plain]
    rfl
  refine readsBack_run [.sub a.reread b.reread] (binding_plain plain) ?_ ?_ ?_
  · rw [tokens_plain plain]
    exact reads
  · exact read.symm
  · intro _
    rw [read]

theorem readsBack_shift {op : Operator} (shift : op = .leftShift ∨ op = .rightShift) {a b : Expr}
    (plain : IsPlain op [a, b]) (left : ReadsBack a) (right : ReadsBack b) :
    ReadsBack (.node op [a, b]) := by
  have level : op.binding = .shift := by
    rcases shift with rfl | rfl <;> rfl
  have second : Reads .sum (bracketedTokens (b.binding.noTighter .shift) b.tokens) b.reread :=
    right.operand fun brackets => not_le.mp (of_decide_eq_false brackets)
  have reads := readsShifted_shift shift left.shiftee second
  have shifted : ReadsShifted (Expr.node op [a, b]).tokens (Expr.node op [a, b]).reread := by
    rw [tokens_plain plain, reread_node, rereadNode_plain plain]
    rcases shift with rfl | rfl <;> exact reads
  constructor
  · rw [binding_plain plain, level]
    exact shifted.reads
  · intro tight
    rw [binding_plain plain, level] at tight
    exact absurd tight (by decide)
  · exact fun _ => shifted

/-! ## Signs and numeral factors -/

theorem isOpposite_ofInt (x : Expr) : isOpposite [.number (.ofInt (-1)), x] = true := by
  simp [isOpposite]

theorem reread_signed (b : Expr) :
    (Expr.node .multiply [.number (.ofInt (-1)), b]).reread = b.reread.negate := by
  rw [reread_node, List.map_cons, List.map_cons, List.map_nil, rereadNode,
    if_pos ⟨rfl, isOpposite_ofInt b⟩]

theorem binding_of_startsWithName {e : Expr} (named : e.startsWithName = true) :
    Binding.power.rank ≤ e.binding.rank := by
  unfold startsWithName at named
  split at named
  · exact Nat.le_succ 8
  · simp [binding, Operator.binding]
  · cases named

/-- The sign is written directly before a name and before anything else that needs no brackets. -/
theorem tokens_signed (b : Expr) :
    (Expr.node .multiply [.number (.ofInt (-1)), b]).tokens =
      .op .subtract :: bracketedTokens (b.binding.looser .sign) b.tokens := by
  by_cases named : b.startsWithName = true
  · have bare : b.binding.looser .sign = false :=
      decide_eq_false (not_lt.mpr (le_trans (by decide) (binding_of_startsWithName named)))
    rw [bare]
    simp only [tokens, tokensAll, nodeTokens, named, directTokens, ↓reduceIte]
    rfl
  · rw [Bool.not_eq_true] at named
    simp only [tokens, tokensAll, nodeTokens, named, Bool.false_eq_true, ↓reduceIte]

theorem readsBack_signed {b : Expr} (inner : ReadsBack b) :
    ReadsBack (.node .multiply [.number (.ofInt (-1)), b]) := by
  have sign : (Expr.node .multiply [.number (.ofInt (-1)), b]).binding = .sign := by
    rw [binding, if_pos ⟨rfl, isOpposite_ofInt b⟩]
  have reads := reads_signed (inner.looser .sign)
  refine .of_tight ?_ (by rw [sign]; decide)
  rw [sign, tokens_signed, reread_signed]
  exact reads

theorem tokens_of_startsWithName {e : Expr} (written : Written e)
    (named : e.startsWithName = true) : ∃ name ts, e.tokens = .name name :: ts ∧ name ≠ "i" := by
  unfold startsWithName at named
  split at named
  · rename_i name
    exact ⟨name, [], rfl, written.2⟩
  · rename_i name rest
    obtain ⟨takes, each⟩ := (written_node _ _).mp written
    obtain ⟨a, b, same⟩ := operands_of_binary takes rfl
    cases same
    have base := each (.ident name) List.mem_cons_self
    exact ⟨name, _, rfl, base.2⟩
  · cases named

/-- The opposite of a positive numeral times a factor. -/
theorem negate_mul {r : Rat} (positive : 0 < r) (e : Expr) :
    (Expr.mul (.number (.exact r)) e).negate = .node .multiply [.number (.exact (-r)), e] := by
  have below : -r ≠ 1 := by
    intro one
    have := Rat.neg_lt_neg positive
    rw [one] at this
    exact absurd this (by decide)
  have other : ¬(Numeral.exact r).neg.isOne = true := by
    simpa [Numeral.neg, Numeral.isOne] using below
  rw [mul, negate, negateFactors, if_neg other]
  rfl

theorem readsBack_direct {r : Rat} {b : Expr} (written : Written b)
    (named : b.startsWithName = true) (inner : ReadsBack b) :
    ReadsBack (.node .multiply [.number (.exact r), b]) := by
  by_cases minus : r = (-1 : Int)
  · rw [minus]
    exact readsBack_signed inner
  have other : ¬(Operator.multiply = .multiply ∧ isOpposite [.number (.exact r), b] = true) := by
    simpa [isOpposite, Numeral.ofInt] using minus
  have level : (Expr.node .multiply [.number (.exact r), b]).binding = .product := by
    rw [binding, if_neg other]
    rfl
  have read : (Expr.node .multiply [.number (.exact r), b]).reread =
      .mul (.number (.exact r)) b.reread := by
    rw [reread_node, List.map_cons, List.map_cons, List.map_nil, rereadNode, if_neg other]
    rfl
  have tokens : (Expr.node .multiply [.number (.exact r), b]).tokens =
      numeralTokens (.exact r) ++ b.tokens := by
    have differs : Numeral.exact r ≠ .ofInt (-1) := by
      simpa [Numeral.ofInt] using minus
    simp only [Expr.tokens, tokensAll, nodeTokens, named, directTokens, differs, ↓reduceIte]
  obtain ⟨name, ts, starts, proper⟩ := tokens_of_startsWithName written named
  have factor : Reads .power b.tokens b.reread :=
    inner.reads.loosen (binding_of_startsWithName named)
  refine .of_tight ?_ (by rw [level])
  rw [level, tokens, read]
  rw [starts] at factor ⊢
  by_cases negative : r < 0
  · have positive : 0 < -r := by
      have := Rat.neg_lt_neg negative
      simpa using this
    have sign := reads_signed ((reads_direct (-r) proper factor).loosen (b := .sign) (by decide))
    rw [negate_mul positive, neg_neg] at sign
    rw [numeralTokens, signTokens, if_pos negative, abs_of_neg negative]
    exact sign.loosen (by decide)
  · rw [numeralTokens_of_nonneg (not_lt.mp negative)]
    exact (reads_direct r proper factor).loosen (by decide)

/-! ## Leaves -/

theorem isNegative_exact (r : Rat) : (Numeral.exact r).isNegative = decide (r < 0) :=
  decide_eq_decide.mpr Rat.num_neg

theorem readsBack_number (r : Rat) : ReadsBack (.number (.exact r)) := by
  by_cases negative : r < 0
  · have level : (Expr.number (.exact r)).binding = .sign := by
      rw [binding, isNegative_exact, decide_eq_true negative]
      rfl
    have reads := reads_signed ((reads_number (-r)).loosen (b := .sign) (by decide))
    rw [negate, Numeral.neg, neg_neg] at reads
    refine .of_tight ?_ (by rw [level]; decide)
    rw [level, tokens, reread, numeralTokens, signTokens, if_pos negative, abs_of_neg negative]
    exact reads
  · have level : (Expr.number (.exact r)).binding = .atom := by
      rw [binding, isNegative_exact, decide_eq_false negative]
      rfl
    refine .of_tight ?_ (by rw [level]; decide)
    rw [level, tokens, reread, numeralTokens_of_nonneg (not_lt.mp negative)]
    exact reads_number r

/-- An imaginary numeral without its sign. -/
theorem reads_magnitude (r : Rat) :
    Reads .atom (if r = 1 then [.name "i"] else [.number r, .name "i"])
      (.complex ⟨.zero, .exact r⟩) := by
  split
  · rename_i one
    rw [one]
    exact reads_name "i"
  · exact reads_imaginary r

theorem readsBack_imaginary (r : Rat) : ReadsBack (.complex ⟨.zero, .exact r⟩) := by
  have real : (!Numeral.zero.isZero) = false := rfl
  by_cases negative : r < 0
  · have level : (Expr.complex ⟨.zero, .exact r⟩).binding = .sign := by
      rw [binding, isNegative_exact, decide_eq_true negative, real]
      rfl
    have reads := reads_signed ((reads_magnitude (-r)).loosen (b := .sign) (by decide))
    have sign : (Expr.complex ⟨.zero, .exact (-r)⟩).negate = .complex ⟨.zero, .exact r⟩ := by
      rw [negate, ComplexNumeral.neg, Numeral.neg, neg_neg]
      rfl
    rw [sign] at reads
    refine .of_tight ?_ (by rw [level]; decide)
    rw [level, tokens, reread, imaginaryTokens, signTokens, if_pos negative, abs_of_neg negative]
    exact reads
  · have level : (Expr.complex ⟨.zero, .exact r⟩).binding = .atom := by
      rw [binding, isNegative_exact, decide_eq_false negative, real]
      rfl
    refine .of_tight ?_ (by rw [level]; decide)
    rw [level, tokens, reread, imaginaryTokens, signTokens, if_neg negative,
      abs_of_nonneg (not_lt.mp negative)]
    exact reads_magnitude r

/-! ## Expressions -/

theorem readsBack_binary {op : Operator} (binary : op.isAssociative = false) {a b : Expr}
    (plain : IsPlain op [a, b]) (left : ReadsBack a) (right : ReadsBack b) :
    ReadsBack (.node op [a, b]) := by
  cases op with
  | subtract => exact readsBack_difference plain left right
  | divide => exact readsBack_quotient (.inl rfl) plain left right
  | modulus => exact readsBack_quotient (.inr rfl) plain left right
  | power => exact readsBack_power plain left right
  | leftShift => exact readsBack_shift (.inl rfl) plain left right
  | rightShift => exact readsBack_shift (.inr rfl) plain left right
  | add | multiply | bitAnd | bitOr | bitXor => cases binary

theorem readsBack_plain {op : Operator} {xs : List Expr} (plain : IsPlain op xs)
    (written : Written (.node op xs)) (each : ∀ x ∈ xs, ReadsBack x) :
    ReadsBack (.node op xs) := by
  obtain ⟨takes, parts⟩ := (written_node op xs).mp written
  cases associative : op.isAssociative with
  | false =>
    obtain ⟨a, b, rfl⟩ := operands_of_binary takes associative
    have left := each a List.mem_cons_self
    have right := each b (List.mem_cons_of_mem a List.mem_cons_self)
    exact readsBack_binary associative plain left right
  | true =>
    cases op with
    | add => exact readsBack_sum plain takes parts each
    | multiply => exact readsBack_product plain takes each
    | bitAnd => exact readsBack_bitwise (.inl rfl) .shift rfl (fun _ => rfl) plain takes each
    | bitOr =>
      exact readsBack_bitwise (.inr (.inl rfl)) .bitXor rfl (fun _ => rfl) plain takes each
    | bitXor =>
      exact readsBack_bitwise (.inr (.inr rfl)) .bitAnd rfl (fun _ => rfl) plain takes each
    | subtract | divide | modulus | power | leftShift | rightShift => cases associative

theorem readsBack_node {op : Operator} {xs : List Expr} (written : Written (.node op xs))
    (each : ∀ x ∈ xs, ReadsBack x) : ReadsBack (.node op xs) := by
  have parts := ((written_node op xs).mp written).2
  rcases kind_of_written written with ⟨r, b, rfl, rfl, named⟩ | ⟨b, rfl, rfl, -⟩ | plain
  · have second : b ∈ [.number (.exact r), b] := List.mem_cons_of_mem _ List.mem_cons_self
    exact readsBack_direct (parts b second) named (each b second)
  · have second : b ∈ [.number (.ofInt (-1)), b] := List.mem_cons_of_mem _ List.mem_cons_self
    exact readsBack_signed (each b second)
  · exact readsBack_plain plain written each

theorem readsBack_call {f : NamedFunction} (function : NamedFunction.ofName f.name = f)
    {xs : List Expr} (each : ∀ x ∈ xs, ReadsBack x) : ReadsBack (.call f xs) := by
  have parts : List.Forall₂ (Reads .bitOr) (xs.map tokens) (xs.map reread) :=
    List.forall₂_map_left_iff.mpr (List.forall₂_map_right_iff.mpr (List.forall₂_same.mpr
      fun x member => (each x member).reads.loosen x.binding.one_le_rank))
  have reads := reads_call f.name parts
  rw [function] at reads
  refine .of_tight ?_ (Nat.le_add_left 6 3)
  rw [tokens, reread, tokensAll_eq_map, rereadAll_eq_map]
  exact reads

theorem readsBack_ident {name : String} (proper : name ≠ "i") : ReadsBack (.ident name) := by
  have reads := reads_name name
  rw [Reader.ofName, if_neg proper] at reads
  exact .of_tight reads (Nat.le_add_left 6 3)

/-- The tokens of an expression are read as what it is read back as. -/
theorem readsBack {e : Expr} (written : Written e) : ReadsBack e := by
  induction e with
  | number x =>
    obtain ⟨r, rfl, -⟩ := written
    exact readsBack_number r
  | complex z =>
    obtain ⟨r, rfl, -⟩ := written
    exact readsBack_imaginary r
  | ident name => exact readsBack_ident written.2
  | call f xs ih =>
    obtain ⟨⟨-, function⟩, parts⟩ := (written_call f xs).mp written
    exact readsBack_call function fun x member => ih x member (parts x member)
  | node op xs ih =>
    have parts := ((written_node op xs).mp written).2
    exact readsBack_node written fun x member => ih x member (parts x member)

theorem ofTokens?_tokens {e : Expr} (written : Written e) :
    ofTokens? e.tokens = some e.reread := by
  have reads : Reads .bitOr e.tokens e.reread :=
    (readsBack written).reads.loosen e.binding.one_le_rank
  have all := reads (3 * e.tokens.length + 3) (Nat.le_add_right _ _) [] trivial
  rw [List.append_nil, atLevel] at all
  rw [ofTokens?, all]

/-- Text is read back. -/
theorem parse?_text {e : Expr} (written : Written e) : parse? e.text = some e.reread := by
  have lexed := (writes_tokens written).lexes.ofChars?
  rw [parse?, lexed, Option.bind_some]
  exact ofTokens?_tokens written

end Expr

end SymbolicAlgebra
