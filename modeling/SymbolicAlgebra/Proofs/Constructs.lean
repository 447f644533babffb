import SymbolicAlgebra.Proofs.Readers

/-! How each construct is read from the tokens of its parts. -/
namespace SymbolicAlgebra

theorem tokensBetween_cons (t : Token) (ts : List Token) (tss : List (List Token)) :
    tokensBetween t (ts :: tss) = ts ++ tss.flatMap (t :: ·) := by
  induction tss generalizing ts with
  | nil => simp [tokensBetween]
  | cons us tss ih =>
    rw [tokensBetween, ih, List.flatMap_cons, List.cons_append]
    simp

theorem length_following (t : Token) (tss : List (List Token)) (rest : List Token) :
    tss.length + rest.length ≤ (tss.flatMap (t :: ·) ++ rest).length := by
  have counted := List.length_flatMap (l := tss) (f := (t :: ·))
  have each : tss.length ≤ (tss.map fun ts => (t :: ts).length).sum := by
    simp
  rw [List.length_append]
  omega

theorem length_le_tokensBetween {t : Token} {ts : List Token} {tss : List (List Token)}
    (h : ts ∈ tss) : ts.length ≤ (tokensBetween t tss).length := by
  induction tss with
  | nil => cases h
  | cons us tss ih =>
    cases tss with
    | nil =>
      rw [List.mem_singleton.mp h]
      exact le_rfl
    | cons vs tss =>
      have length : (tokensBetween t (us :: vs :: tss)).length =
          us.length + 1 + (tokensBetween t (vs :: tss)).length := by
        simp [tokensBetween]
        omega
      rcases List.mem_cons.mp h with rfl | later
      · omega
      · have := ih later
        omega

namespace Reader

theorem stops_op {o : Operator} {b : Binding} (less : o.binding.rank < b.rank) (ts : List Token) :
    Stops b (.op o :: ts) := less

/-- A further operand follows only where its sign is allowed. -/
theorem Stops.following {o : Operator} {b : Binding} (less : o.binding.rank < b.rank)
    {rest : List Token} (h : Stops b rest) (tss : List (List Token)) :
    Stops b (tss.flatMap (.op o :: ·) ++ rest) := by
  cases tss with
  | nil => exact h
  | cons ts tss => exact stops_op less _

theorem Reads.all {b : Binding} {tss : List (List Token)} {es : List Expr} {depth : Nat}
    (each : List.Forall₂ (Reads b) tss es) (enough : ∀ ts ∈ tss, 3 * ts.length ≤ depth) :
    List.Forall₂ (ReadsWith (atLevel depth b) b) tss es := by
  induction each with
  | nil => exact .nil
  | cons first _ ih =>
    have rest := ih fun ts member => enough ts (List.mem_cons_of_mem _ member)
    exact .cons (first depth (enough _ List.mem_cons_self)) rest

/-! ## Chains of one operator -/

theorem moreOperands_reads {op : Operator} {inner : Binding} {read : Reader}
    {tss : List (List Token)} {es : List Expr} (each : List.Forall₂ (ReadsWith read inner) tss es)
    (tighter : op.binding.rank < inner.rank) {rest : List Token} (stops : Stops op.binding rest)
    {count : Nat} (enough : tss.length ≤ count) :
    moreOperands op read count (tss.flatMap (.op op :: ·) ++ rest) = some (es, rest) := by
  induction each generalizing count with
  | nil => exact moreOperands_stops stops read count
  | cons first _ ih =>
    rename_i ts e tss es _
    cases count with
    | zero => simp at enough
    | succ count =>
      have after := Stops.following tighter (stops.mono tighter.le) tss
      have read := first _ after
      have others := ih (Nat.le_of_succ_le_succ enough)
      simp only [List.flatMap_cons, List.cons_append, List.append_assoc, moreOperands, ↓reduceIte,
        read, others, Option.bind_eq_bind, Option.bind_some]

/-- Operands of one of the bitwise operators. -/
theorem reads_chain {op : Operator} {inner : Binding}
    (level : ∀ depth, atLevel depth op.binding = flatChain op (atLevel depth inner))
    (tighter : op.binding.rank < inner.rank) {tss : List (List Token)} {es : List Expr}
    (each : List.Forall₂ (Reads inner) tss es) (two : 2 ≤ es.length) :
    Reads op.binding (tokensBetween (.op op) tss) (.node op es) := by
  intro depth enough rest stops
  have fits : ∀ ts ∈ tss, 3 * ts.length ≤ depth := by
    intro ts member
    have := length_le_tokensBetween (t := .op op) member
    omega
  cases Reads.all each fits with
  | nil => simp at two
  | cons first others =>
    rename_i ts e tss es
    have after := Stops.following tighter (stops.mono tighter.le) tss
    have count := length_following (.op op) tss rest
    have more := moreOperands_reads others tighter stops ((Nat.le_add_right _ _).trans count)
    rw [level, tokensBetween_cons, List.append_assoc]
    simp only [flatChain, first _ after, more, Option.bind_eq_bind, Option.bind_some]
    cases es with
    | nil => simp at two
    | cons e' es => rfl

/-! ## Products and quotients -/

theorem moreFactors_reads {read : Reader} {tss : List (List Token)} {es : List Expr}
    (each : List.Forall₂ (ReadsWith read .sign) tss es) {rest : List Token}
    (stops : Stops .product rest) {count : Nat} (enough : tss.length ≤ count) (run : List Expr) :
    moreFactors read count run (tss.flatMap (.op .multiply :: ·) ++ rest) =
      some (ofRun .multiply (run ++ es), rest) := by
  induction each generalizing count run with
  | nil =>
    rw [List.append_nil]
    exact moreFactors_stops stops read count run
  | cons first _ ih =>
    rename_i ts e tss es _
    cases count with
    | zero => simp at enough
    | succ count =>
      have inner : Stops .sign rest := stops.mono (by decide)
      have read := first _ (inner.following (o := .multiply) (by decide) tss)
      have others := ih (Nat.le_of_succ_le_succ enough) (run ++ [e])
      rw [List.append_assoc] at others
      simp only [List.flatMap_cons, List.cons_append, List.append_assoc, moreFactors, read, others,
        Option.bind_eq_bind, Option.bind_some, List.nil_append]

theorem reads_product {tss : List (List Token)} {es : List Expr}
    (each : List.Forall₂ (Reads .sign) tss es) (two : 2 ≤ es.length) :
    Reads .product (tokensBetween (.op .multiply) tss) (.node .multiply es) := by
  intro depth enough rest stops
  have fits : ∀ ts ∈ tss, 3 * ts.length ≤ depth := by
    intro ts member
    have := length_le_tokensBetween (t := .op .multiply) member
    omega
  cases Reads.all each fits with
  | nil => simp at two
  | cons first others =>
    rename_i ts e tss es
    have inner : Stops .sign rest := stops.mono (by decide)
    have count := length_following (.op .multiply) tss rest
    have more := moreFactors_reads others stops ((Nat.le_add_right _ _).trans count) [e]
    have read := first _ (inner.following (o := .multiply) (by decide) tss)
    rw [atLevel] at read more
    rw [atLevel, tokensBetween_cons, List.append_assoc]
    simp only [factors, read, more, Option.bind_eq_bind, Option.bind_some]
    cases es with
    | nil => simp at two
    | cons e' es => rfl

/-- A quotient or a remainder. -/
theorem reads_quotient {op : Operator} (quotient : op = .divide ∨ op = .modulus)
    {ts us : List Token} {a b : Expr} (left : Reads .sign ts a) (right : Reads .sign us b) :
    Reads .product (ts ++ .op op :: us) (.node op [a, b]) := by
  intro depth enough rest stops
  rw [List.length_append, List.length_cons] at enough
  have second := right depth (by omega) rest (stops.mono (by decide))
  have less : op.binding.rank < Binding.sign.rank := by
    rcases quotient with rfl | rfl <;> decide
  have first := left depth (by omega) _ (stops_op less (us ++ rest))
  have ends := moreFactors_stops stops (signed depth)
  rw [atLevel] at first second
  rw [atLevel, List.append_assoc, List.cons_append]
  simp only [factors, first, Option.bind_eq_bind, Option.bind_some, List.length_cons]
  rcases quotient with rfl | rfl
  · simp only [moreFactors, second, ends, Option.bind_eq_bind, Option.bind_some]
    rfl
  · simp only [moreFactors, second, ends, Option.bind_eq_bind, Option.bind_some]
    rfl

/-! ## Sums and differences -/

/-- The tokens are read as a run of addends that may go on. -/
def ReadsRun (ts : List Token) (run : List Expr) : Prop :=
  ∀ depth, 3 * ts.length ≤ depth → ∀ rest, Stops .product rest →
    ∃ count, rest.length ≤ count ∧
      addends (signed depth) (ts ++ rest) = moreAddends (factors (signed depth)) count run rest

theorem Reads.run {ts : List Token} {e : Expr} (h : Reads .product ts e) : ReadsRun ts [e] := by
  intro depth enough rest stops
  have read := h depth enough rest stops
  rw [atLevel] at read
  refine ⟨rest.length, le_rfl, ?_⟩
  simp only [addends, read, Option.bind_eq_bind, Option.bind_some]

theorem ReadsRun.reads {ts : List Token} {run : List Expr} (h : ReadsRun ts run) :
    Reads .sum ts (ofRun .add run) := by
  intro depth enough rest stops
  obtain ⟨count, -, read⟩ := h depth enough rest (stops.mono (by decide))
  rw [atLevel, read]
  exact moreAddends_stops stops _ count run

theorem moreAddends_reads {read : Reader} {tss : List (List Token)} {es : List Expr}
    (each : List.Forall₂ (ReadsWith read .product) tss es) {rest : List Token}
    (stops : Stops .product rest) {count : Nat}
    (enough : (tss.flatMap (.op .add :: ·) ++ rest).length ≤ count) (run : List Expr) :
    ∃ left, rest.length ≤ left ∧
      moreAddends read count run (tss.flatMap (.op .add :: ·) ++ rest) =
        moreAddends read left (run ++ es) rest := by
  induction each generalizing count run with
  | nil => exact ⟨count, enough, by rw [List.append_nil]; rfl⟩
  | cons first _ ih =>
    rename_i ts e tss es _
    rw [List.flatMap_cons, List.cons_append, List.cons_append, List.append_assoc] at enough ⊢
    rw [List.length_cons, List.length_append] at enough
    cases count with
    | zero => omega
    | succ count =>
      have read := first _ (stops.following (o := .add) (by decide) tss)
      have fewer : (tss.flatMap (.op .add :: ·) ++ rest).length ≤ count := by
        omega
      obtain ⟨left, bound, others⟩ := ih fewer (run ++ [e])
      refine ⟨left, bound, ?_⟩
      rw [List.append_assoc] at others
      simp only [moreAddends, read, others, Option.bind_eq_bind, Option.bind_some,
        List.singleton_append]

/-- A sum goes on with the run that its first addend is. -/
theorem readsRun_sum {ts : List Token} {e : Expr} (first : ReadsRun ts [e])
    {tss : List (List Token)} {es : List Expr} (each : List.Forall₂ (Reads .product) tss es) :
    ReadsRun (tokensBetween (.op .add) (ts :: tss)) (e :: es) := by
  intro depth enough rest stops
  have fits : ∀ us ∈ ts :: tss, 3 * us.length ≤ depth := by
    intro us member
    have := length_le_tokensBetween (t := .op .add) member
    omega
  have after := stops.following (o := .add) (by decide) tss
  obtain ⟨count, bound, start⟩ := first depth (fits ts List.mem_cons_self) _ after
  have others := Reads.all each fun us member => fits us (List.mem_cons_of_mem _ member)
  obtain ⟨left, bound', more⟩ := moreAddends_reads others stops bound [e]
  refine ⟨left, bound', ?_⟩
  rw [tokensBetween_cons, List.append_assoc, start]
  exact more

/-- A difference makes the run before it its left side. -/
theorem readsRun_difference {ts us : List Token} {run : List Expr} {e : Expr}
    (first : ReadsRun ts run) (second : Reads .product us e) :
    ReadsRun (ts ++ .op .subtract :: us) [.sub (ofRun .add run) e] := by
  intro depth enough rest stops
  rw [List.length_append, List.length_cons] at enough
  have after : Stops .product (.op .subtract :: (us ++ rest)) := stops_op (by decide) _
  obtain ⟨count, bound, start⟩ := first depth (by omega) _ after
  have read := second depth (by omega) rest stops
  rw [atLevel] at read
  rw [List.append_assoc, List.cons_append, start]
  rw [List.length_cons, List.length_append] at bound
  cases count with
  | zero => omega
  | succ count =>
    refine ⟨count, by omega, ?_⟩
    simp only [moreAddends, read, Option.bind_eq_bind, Option.bind_some]

/-! ## Shifts -/

/-- The tokens are read as the left side of shifts that may follow. -/
def ReadsShifted (ts : List Token) (e : Expr) : Prop :=
  ∀ depth, 3 * ts.length ≤ depth → ∀ rest, Stops .sum rest →
    ∃ count, rest.length ≤ count ∧
      shifts (signed depth) (ts ++ rest) = moreShifts (addends (signed depth)) count e rest

theorem Reads.shifted {ts : List Token} {e : Expr} (h : Reads .sum ts e) : ReadsShifted ts e := by
  intro depth enough rest stops
  have read := h depth enough rest stops
  rw [atLevel] at read
  refine ⟨rest.length, le_rfl, ?_⟩
  simp only [shifts, read, Option.bind_eq_bind, Option.bind_some]

theorem ReadsShifted.reads {ts : List Token} {e : Expr} (h : ReadsShifted ts e) :
    Reads .shift ts e := by
  intro depth enough rest stops
  obtain ⟨count, -, read⟩ := h depth enough rest (stops.mono (by decide))
  rw [atLevel, read]
  exact moreShifts_stops stops _ count e

theorem readsShifted_shift {op : Operator} (shift : op = .leftShift ∨ op = .rightShift)
    {ts us : List Token} {a b : Expr} (left : ReadsShifted ts a) (right : Reads .sum us b) :
    ReadsShifted (ts ++ .op op :: us) (.node op [a, b]) := by
  intro depth enough rest stops
  rw [List.length_append, List.length_cons] at enough
  have less : op.binding.rank < Binding.sum.rank := by
    rcases shift with rfl | rfl <;> decide
  obtain ⟨count, bound, start⟩ := left depth (by omega) _ (stops_op less (us ++ rest))
  have read := right depth (by omega) rest stops
  rw [atLevel] at read
  rw [List.append_assoc, List.cons_append, start]
  rw [List.length_cons, List.length_append] at bound
  cases count with
  | zero => omega
  | succ count =>
    refine ⟨count, by omega, ?_⟩
    rcases shift with rfl | rfl
    · simp only [moreShifts, read, Option.bind_eq_bind, Option.bind_some]
    · simp only [moreShifts, read, Option.bind_eq_bind, Option.bind_some]

/-! ## Names and numbers -/

theorem atLevel_atom (depth : Nat) : atLevel (depth + 3) .atom = primary (depth + 1) := rfl

theorem reads_number (r : Rat) : Reads .atom [.number r] (.number (.exact r)) := by
  intro depth enough rest stops
  match depth, rest, stops with
  | depth + 3, [], _ => rfl
  | depth + 3, .op _ :: _, _ | depth + 3, .closeParen :: _, _ | depth + 3, .comma :: _, _ => rfl
  | 0, _, _ | 1, _, _ | 2, _, _ => simp at enough

theorem reads_imaginary (r : Rat) :
    Reads .atom [.number r, .name "i"] (.complex ⟨.zero, .exact r⟩) := by
  intro depth enough rest _
  match depth with
  | depth + 3 => rfl
  | 0 | 1 | 2 => simp at enough

theorem reads_name (name : String) : Reads .atom [.name name] (ofName name) := by
  intro depth enough rest stops
  match depth, rest, stops with
  | depth + 3, [], _ => rfl
  | depth + 3, .op _ :: _, _ | depth + 3, .closeParen :: _, _ | depth + 3, .comma :: _, _ => rfl
  | 0, _, _ | 1, _, _ | 2, _, _ => simp at enough

/-- A numeral before a name multiplies the power that follows. -/
theorem reads_direct (r : Rat) {name : String} (other : name ≠ "i") {ts : List Token} {e : Expr}
    (h : Reads .power (.name name :: ts) e) :
    Reads .power (.number r :: .name name :: ts) (.mul (.number (.exact r)) e) := by
  intro depth enough rest stops
  simp only [List.length_cons] at enough
  match depth with
  | depth + 3 =>
    have follows := h (depth + 1) (by simp only [List.length_cons]; omega) rest stops
    rw [atLevel, Nat.add_sub_cancel, List.cons_append] at follows
    have product : primary (depth + 1) (.number r :: .name name :: ts ++ rest) =
        some (.mul (.number (.exact r)) e, rest) := by
      simp only [List.cons_append, primary, if_neg other, follows, Option.bind_eq_bind,
        Option.bind_some]
    exact power_of_primary product stops
  | 0 | 1 | 2 => omega

/-! ## Signs, powers and brackets -/

theorem reads_signed {ts : List Token} {e : Expr} (h : Reads .sign ts e) :
    Reads .sign (.op .subtract :: ts) e.negate := by
  intro depth enough rest stops
  rw [List.length_cons] at enough
  match depth with
  | depth + 1 =>
    have inner := h depth (by omega) rest stops
    rw [atLevel] at inner
    simp only [atLevel, List.cons_append, signed, inner, Option.bind_eq_bind, Option.bind_some]
  | 0 => omega

theorem reads_power {ts us : List Token} {a b : Expr} (left : Reads .atom ts a)
    (right : Reads .sign us b) : Reads .power (ts ++ .op .power :: us) (.pow a b) := by
  intro depth enough rest stops
  rw [List.length_append, List.length_cons] at enough
  match depth with
  | depth + 2 =>
    have base := left (depth + 2) (by omega) _ (stops_op (o := .power) (by decide) (us ++ rest))
    have exponent := right depth (by omega) rest stops.sign
    rw [atLevel, Nat.add_sub_cancel] at base
    rw [atLevel] at exponent
    rw [List.append_assoc, List.cons_append]
    simp only [atLevel, Nat.add_one_sub_one, power, base, exponent, Option.bind_eq_bind,
      Option.bind_some]
  | 0 | 1 => omega

theorem reads_bracketed {ts : List Token} {e : Expr} (h : Reads .bitOr ts e) :
    Reads .atom (.openParen :: (ts ++ [.closeParen])) e := by
  intro depth enough rest _
  rw [List.length_cons, List.length_append, List.length_singleton] at enough
  match depth with
  | depth + 3 =>
    have inside := h depth (by omega) (.closeParen :: rest) trivial
    rw [atLevel] at inside
    simp only [atLevel_atom, List.cons_append, List.append_assoc, List.nil_append, primary,
      bracketed, inside, Option.bind_eq_bind, Option.bind_some]
  | 0 | 1 | 2 => omega

/-! ## Calls -/

theorem moreArguments_reads {read : Reader} {tss : List (List Token)} {es : List Expr}
    (each : List.Forall₂ (ReadsWith (expression read) .bitOr) tss es) (rest : List Token)
    {count : Nat} (enough : tss.length ≤ count) :
    moreArguments read count (tss.flatMap (.comma :: ·) ++ .closeParen :: rest) =
      some (es, rest) := by
  induction each generalizing count with
  | nil => cases count <;> rfl
  | cons first _ ih =>
    rename_i ts e tss es _
    cases count with
    | zero => simp at enough
    | succ count =>
      have after : Stops .bitOr (tss.flatMap (.comma :: ·) ++ .closeParen :: rest) := by
        cases tss <;> trivial
      have read := first _ after
      have others := ih (Nat.le_of_succ_le_succ enough)
      simp only [List.flatMap_cons, List.cons_append, List.append_assoc, moreArguments, read,
        others, Option.bind_eq_bind, Option.bind_some]

theorem expression_closeParen (depth : Nat) (ts : List Token) :
    expression (signed depth) (.closeParen :: ts) = none := by
  simp only [expression, flatChain, shifts, addends, factors, signed_closeParen,
    Option.bind_eq_bind, Option.bind_none]

theorem reads_call (name : String) {tss : List (List Token)} {es : List Expr}
    (each : List.Forall₂ (Reads .bitOr) tss es) :
    Reads .atom (.name name :: .openParen :: (tokensBetween .comma tss ++ [.closeParen]))
      (.call (.ofName name) es) := by
  intro depth enough rest _
  simp only [List.length_cons, List.length_append, List.length_nil] at enough
  match depth with
  | depth + 3 =>
    have inside : arguments (signed depth) (tokensBetween .comma tss ++ .closeParen :: rest) =
        some (es, rest) := by
      have fits : ∀ ts ∈ tss, 3 * ts.length ≤ depth := by
        intro ts member
        have := length_le_tokensBetween (t := .comma) member
        omega
      cases Reads.all each fits with
      | nil => rfl
      | cons first others =>
        rename_i ts e tss es
        have after : Stops .bitOr (tss.flatMap (.comma :: ·) ++ .closeParen :: rest) := by
          cases tss <;> trivial
        have read := first _ after
        have count := length_following .comma tss (.closeParen :: rest)
        have more := moreArguments_reads others rest ((Nat.le_add_right _ _).trans count)
        rw [atLevel] at read
        rw [tokensBetween_cons, List.append_assoc, arguments]
        · simp only [read, more, Option.bind_eq_bind, Option.bind_some]
        · rintro us same
          rw [same, expression_closeParen] at read
          cases read
    simp only [atLevel_atom, List.cons_append, List.append_assoc, List.nil_append, primary, inside,
      Option.bind_eq_bind, Option.bind_some]
  | 0 | 1 | 2 => omega

end Reader

end SymbolicAlgebra
