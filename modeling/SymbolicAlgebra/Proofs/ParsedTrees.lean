import SymbolicAlgebra.Proofs.TextTokens
import SymbolicAlgebra.Text.Reader

/-! The trees that text is read as: all of their numerals are decimals, and all of their nodes have
the operands that their operators take. -/
namespace SymbolicAlgebra

/-! ## Tokens of text -/

/-- What a token of text holds. -/
def Token.IsProper : Token → Prop
  | .number r => IsDecimal r
  | .name n => IsName n
  | _ => True

def AllProper (ts : List Token) : Prop := ∀ t ∈ ts, t.IsProper

theorem isDecimal_decimalValue (whole frac : List Char) : IsDecimal (decimalValue whole frac) :=
  ⟨frac.length, den_decimalValue_dvd whole frac⟩

theorem isName_takeWhile {c : Char} (first : startsName c = true) (cs : List Char) :
    IsName (String.ofList (c :: cs.takeWhile continuesName)) := by
  refine ⟨c, cs.takeWhile continuesName, String.toList_ofList, first, ?_⟩
  intro d member
  exact List.all_eq_true.mp List.all_takeWhile d member

namespace Token

theorem isProper_ofChar? {c : Char} {t : Token} (h : ofChar? c = some t) : t.IsProper := by
  unfold ofChar? at h
  split at h <;> cases h <;> trivial

theorem isProper_first? {c : Char} {cs rest : List Char} {t : Token}
    (h : first? c cs = some (t, rest)) : t.IsProper := by
  unfold first? at h
  split at h
  · split at h
    · split at h <;> cases h <;> exact isDecimal_decimalValue _ _
    · cases h
      exact isDecimal_decimalValue _ _
  · split at h
    · rename_i first
      cases h
      exact isName_takeWhile first cs
    · split at h
      · cases h
        trivial
      · cases h
        trivial
      · cases h
        trivial
      · obtain ⟨t', found, same⟩ := Option.map_eq_some_iff.mp h
        cases same
        exact isProper_ofChar? found

theorem allProper_ofChars? {cs : List Char} {ts : List Token} (h : ofChars? cs = some ts) :
    AllProper ts := by
  induction cs using ofChars?.induct generalizing ts with
  | case1 =>
    rw [ofChars?_nil] at h
    cases h
    exact nofun
  | case2 c cs blank ih =>
    rw [ofChars?_blank blank] at h
    exact ih h
  | case3 c cs blank none =>
    rw [ofChars?, if_neg blank] at h
    split at h
    · cases h
    · rename_i some
      rw [none] at some
      cases some
  | case4 c cs blank t rest found ih =>
    rw [Bool.not_eq_true] at blank
    rw [ofChars?_token blank found] at h
    obtain ⟨us, others, rfl⟩ := Option.map_eq_some_iff.mp h
    exact List.forall_mem_cons.mpr ⟨isProper_first? found, ih others⟩

end Token

/-! ## Signs -/

theorem NamedFunction.name_ofName (s : String) : (ofName s).name = s := by
  unfold ofName
  cases found : known.find? fun f => f.name == s with
  | none => rfl
  | some f =>
    have same := List.find?_some found
    exact beq_iff_eq.mp same

namespace Expr

theorem written_ofInt (n : Int) : Written (ofInt n) := ⟨n, rfl, 0, by simp⟩

theorem written_product {xs : List Expr} (nonempty : xs ≠ []) (each : ∀ x ∈ xs, Written x) :
    Written (product xs) := by
  match xs, nonempty with
  | [x], _ => exact each x List.mem_cons_self
  | x :: y :: ys, _ =>
    refine (written_node _ _).mpr ⟨?_, each⟩
    exact Nat.le_add_left 2 ys.length

theorem written_negateFactors {xs : List Expr} (takes : Operator.multiply.Takes xs.length)
    (each : ∀ x ∈ xs, Written x) : negateFactors xs ≠ [] ∧ ∀ x ∈ negateFactors xs, Written x := by
  have two : 2 ≤ xs.length := takes
  unfold negateFactors
  split
  · rename_i x rest
    have others : ∀ y ∈ rest, Written y := fun y member => each y (List.mem_cons_of_mem _ member)
    split
    · refine ⟨?_, others⟩
      rintro rfl
      rw [List.length_singleton] at two
      omega
    · obtain ⟨r, rfl, decimal⟩ := each (.number x) List.mem_cons_self
      have opposite : Written (.number (Numeral.exact r).neg) := ⟨-r, rfl, decimal.neg⟩
      exact ⟨List.cons_ne_nil _ _, List.forall_mem_cons.mpr ⟨opposite, others⟩⟩
  · exact ⟨List.cons_ne_nil _ _, List.forall_mem_cons.mpr ⟨written_ofInt (-1), each⟩⟩

theorem written_negate {e : Expr} (h : Written e) : Written e.negate := by
  fun_induction negate e with
  | case1 x =>
    obtain ⟨r, rfl, decimal⟩ := h
    exact ⟨-r, rfl, decimal.neg⟩
  | case2 z =>
    obtain ⟨r, rfl, decimal⟩ := h
    exact ⟨-r, rfl, decimal.neg⟩
  | case3 factors =>
    obtain ⟨takes, each⟩ := (written_node _ _).mp h
    have factors := written_negateFactors takes each
    exact written_product factors.1 factors.2
  | case4 n d ih =>
    obtain ⟨takes, each⟩ := (written_node _ _).mp h
    have sides := List.forall_mem_cons.mp each
    exact (written_node _ _).mpr ⟨takes, List.forall_mem_cons.mpr ⟨ih sides.1, sides.2⟩⟩
  | case5 e =>
    have each := List.forall_mem_cons.mpr ⟨written_ofInt (-1), List.forall_mem_singleton.mpr h⟩
    exact written_product (List.cons_ne_nil _ _) each

end Expr

/-! ## Runs of operands -/

namespace Reader

/-- What is read from tokens of text is such a tree, and what follows it are such tokens. -/
def Sound (read : Reader) : Prop :=
  ∀ ts e rest, AllProper ts → read ts = some (e, rest) → e.Written ∧ AllProper rest

theorem allProper_tail {t : Token} {ts : List Token} (h : AllProper (t :: ts)) : AllProper ts :=
  fun u member => h u (List.mem_cons_of_mem t member)

theorem written_ofRun {op : Operator} (associative : op.isAssociative = true) {run : List Expr}
    (nonempty : run ≠ []) (each : ∀ e ∈ run, e.Written) : (ofRun op run).Written := by
  match run, nonempty with
  | [e], _ => exact each e List.mem_cons_self
  | e :: e' :: es, _ =>
    refine (Expr.written_node _ _).mpr ⟨?_, each⟩
    rw [Operator.Takes, if_pos associative]
    exact Nat.le_add_left 2 es.length

theorem written_two {op : Operator} (binary : op.isAssociative = false) {a b : Expr}
    (left : a.Written) (right : b.Written) : (Expr.node op [a, b]).Written := by
  refine (Expr.written_node _ _).mpr ⟨?_, ?_⟩
  · rw [Operator.Takes, binary]
    rfl
  · exact List.forall_mem_cons.mpr ⟨left, List.forall_mem_singleton.mpr right⟩

theorem written_append {run : List Expr} (each : ∀ e ∈ run, e.Written) {e : Expr}
    (last : e.Written) : ∀ d ∈ run ++ [e], d.Written := by
  intro d member
  rcases List.mem_append.mp member with before | here
  · exact each d before
  · rw [List.mem_singleton.mp here]
    exact last

variable {read : Reader}

theorem Sound.moreOperands (sound : Sound read) (op : Operator) (count : Nat) {ts rest : List Token}
    {es : List Expr} (proper : AllProper ts) (h : moreOperands op read count ts = some (es, rest)) :
    (∀ e ∈ es, e.Written) ∧ AllProper rest := by
  induction count, ts using moreOperands.induct op generalizing es rest with
  | case1 count ts ih =>
    rw [Reader.moreOperands, if_pos rfl] at h
    obtain ⟨⟨e, us⟩, first, h⟩ := Option.bind_eq_some_iff.mp h
    obtain ⟨⟨others, vs⟩, more, h⟩ := Option.bind_eq_some_iff.mp h
    cases h
    have here := sound _ _ _ (allProper_tail proper) first
    have later := ih us here.2 more
    exact ⟨List.forall_mem_cons.mpr ⟨here.1, later.1⟩, later.2⟩
  | case2 count o ts other =>
    rw [Reader.moreOperands, if_neg other] at h
    cases h
    exact ⟨nofun, proper⟩
  | case3 count ts none =>
    rw [Reader.moreOperands] at h
    · cases h
      exact ⟨nofun, proper⟩
    · exact none

theorem Sound.flatChain (sound : Sound read) {op : Operator}
    (associative : op.isAssociative = true) : Sound (flatChain op read) := by
  intro ts e rest proper h
  obtain ⟨⟨first, us⟩, here, h⟩ := Option.bind_eq_some_iff.mp h
  obtain ⟨⟨others, vs⟩, more, h⟩ := Option.bind_eq_some_iff.mp h
  cases h
  have start := sound _ _ _ proper here
  have later := sound.moreOperands op _ start.2 more
  have each := List.forall_mem_cons.mpr ⟨start.1, later.1⟩
  exact ⟨written_ofRun associative (List.cons_ne_nil _ _) each, later.2⟩

theorem Sound.moreFactors (sound : Sound read) (count : Nat) {run : List Expr}
    (nonempty : run ≠ []) (each : ∀ e ∈ run, e.Written) {ts rest : List Token} {e : Expr}
    (proper : AllProper ts) (h : moreFactors read count run ts = some (e, rest)) :
    e.Written ∧ AllProper rest := by
  have left : ∀ {run : List Expr}, run ≠ [] → (∀ e ∈ run, e.Written) →
      (ofRun .multiply run).Written := written_ofRun rfl
  induction count, run, ts using moreFactors.induct with
  | case1 count run ts ih =>
    rw [Reader.moreFactors] at h
    obtain ⟨⟨next, us⟩, here, h⟩ := Option.bind_eq_some_iff.mp h
    have start := sound _ _ _ (allProper_tail proper) here
    exact ih next us (by simp) (written_append each start.1) start.2 h
  | case2 count run ts ih =>
    rw [Reader.moreFactors] at h
    obtain ⟨⟨next, us⟩, here, h⟩ := Option.bind_eq_some_iff.mp h
    have start := sound _ _ _ (allProper_tail proper) here
    have quotient : (Expr.div (ofRun .multiply run) next).Written :=
      written_two rfl (left nonempty each) start.1
    exact ih next us (List.cons_ne_nil _ _) (by simpa using quotient) start.2 h
  | case3 count run ts ih =>
    rw [Reader.moreFactors] at h
    obtain ⟨⟨next, us⟩, here, h⟩ := Option.bind_eq_some_iff.mp h
    have start := sound _ _ _ (allProper_tail proper) here
    have remainder : (Expr.node .modulus [ofRun .multiply run, next]).Written :=
      written_two rfl (left nonempty each) start.1
    exact ih next us (List.cons_ne_nil _ _) (by simpa using remainder) start.2 h
  | case4 count run ts multiply divide modulus =>
    rw [Reader.moreFactors] at h
    · cases h
      exact ⟨left nonempty each, proper⟩
    · exact multiply
    · exact divide
    · exact modulus

theorem Sound.moreAddends (sound : Sound read) (count : Nat) {run : List Expr}
    (nonempty : run ≠ []) (each : ∀ e ∈ run, e.Written) {ts rest : List Token} {e : Expr}
    (proper : AllProper ts) (h : moreAddends read count run ts = some (e, rest)) :
    e.Written ∧ AllProper rest := by
  induction count, run, ts using moreAddends.induct with
  | case1 count run ts ih =>
    rw [Reader.moreAddends] at h
    obtain ⟨⟨next, us⟩, here, h⟩ := Option.bind_eq_some_iff.mp h
    have start := sound _ _ _ (allProper_tail proper) here
    exact ih next us (by simp) (written_append each start.1) start.2 h
  | case2 count run ts ih =>
    rw [Reader.moreAddends] at h
    obtain ⟨⟨next, us⟩, here, h⟩ := Option.bind_eq_some_iff.mp h
    have start := sound _ _ _ (allProper_tail proper) here
    have difference : (Expr.sub (ofRun .add run) next).Written :=
      written_two rfl (written_ofRun rfl nonempty each) start.1
    exact ih next us (List.cons_ne_nil _ _) (by simpa using difference) start.2 h
  | case3 count run ts add subtract =>
    rw [Reader.moreAddends] at h
    · cases h
      exact ⟨written_ofRun rfl nonempty each, proper⟩
    · exact add
    · exact subtract

theorem Sound.moreShifts (sound : Sound read) (count : Nat) {left : Expr} (written : left.Written)
    {ts rest : List Token} {e : Expr} (proper : AllProper ts)
    (h : moreShifts read count left ts = some (e, rest)) : e.Written ∧ AllProper rest := by
  induction count, left, ts using moreShifts.induct with
  | case1 count left ts ih =>
    rw [Reader.moreShifts] at h
    obtain ⟨⟨next, us⟩, here, h⟩ := Option.bind_eq_some_iff.mp h
    have start := sound _ _ _ (allProper_tail proper) here
    exact ih next us (written_two rfl written start.1) start.2 h
  | case2 count left ts ih =>
    rw [Reader.moreShifts] at h
    obtain ⟨⟨next, us⟩, here, h⟩ := Option.bind_eq_some_iff.mp h
    have start := sound _ _ _ (allProper_tail proper) here
    exact ih next us (written_two rfl written start.1) start.2 h
  | case3 count left ts leftShift rightShift =>
    rw [Reader.moreShifts] at h
    · cases h
      exact ⟨written, proper⟩
    · exact leftShift
    · exact rightShift

/-! ## Levels -/

theorem Sound.factors (sound : Sound read) : Sound (factors read) := by
  intro ts e rest proper h
  obtain ⟨⟨first, us⟩, here, h⟩ := Option.bind_eq_some_iff.mp h
  have start := sound _ _ _ proper here
  exact sound.moreFactors _ (List.cons_ne_nil _ _) (by simpa using start.1) start.2 h

theorem Sound.addends (sound : Sound read) : Sound (addends read) := by
  intro ts e rest proper h
  obtain ⟨⟨first, us⟩, here, h⟩ := Option.bind_eq_some_iff.mp h
  have start := sound.factors _ _ _ proper here
  exact sound.factors.moreAddends _ (List.cons_ne_nil _ _) (by simpa using start.1) start.2 h

theorem Sound.shifts (sound : Sound read) : Sound (shifts read) := by
  intro ts e rest proper h
  obtain ⟨⟨first, us⟩, here, h⟩ := Option.bind_eq_some_iff.mp h
  have start := sound.addends _ _ _ proper here
  exact sound.addends.moreShifts _ start.1 start.2 h

theorem Sound.expression (sound : Sound read) : Sound (expression read) :=
  ((sound.shifts.flatChain rfl).flatChain rfl).flatChain rfl

theorem Sound.bracketed (sound : Sound read) : Sound (bracketed read) := by
  intro ts e rest proper h
  obtain ⟨⟨inner, us⟩, here, h⟩ := Option.bind_eq_some_iff.mp h
  have inside := sound.expression _ _ _ proper here
  split at h
  · rename_i same
    cases same
    cases h
    exact ⟨inside.1, allProper_tail inside.2⟩
  · cases h

theorem Sound.moreArguments (sound : Sound read) (count : Nat) {ts rest : List Token}
    {es : List Expr} (proper : AllProper ts) (h : moreArguments read count ts = some (es, rest)) :
    (∀ e ∈ es, e.Written) ∧ AllProper rest := by
  induction count, ts using moreArguments.induct generalizing es rest with
  | case1 count ts =>
    rw [Reader.moreArguments] at h
    cases h
    exact ⟨nofun, allProper_tail proper⟩
  | case2 count ts ih =>
    rw [Reader.moreArguments] at h
    obtain ⟨⟨e, us⟩, first, h⟩ := Option.bind_eq_some_iff.mp h
    obtain ⟨⟨others, vs⟩, more, h⟩ := Option.bind_eq_some_iff.mp h
    cases h
    have here := sound.expression _ _ _ (allProper_tail proper) first
    have later := ih us here.2 more
    exact ⟨List.forall_mem_cons.mpr ⟨here.1, later.1⟩, later.2⟩
  | case3 count ts close comma =>
    rw [Reader.moreArguments] at h
    · cases h
    · exact close
    · exact comma

theorem Sound.arguments (sound : Sound read) {ts rest : List Token} {es : List Expr}
    (proper : AllProper ts) (h : arguments read ts = some (es, rest)) :
    (∀ e ∈ es, e.Written) ∧ AllProper rest := by
  unfold Reader.arguments at h
  split at h
  · cases h
    exact ⟨nofun, allProper_tail proper⟩
  · obtain ⟨⟨e, us⟩, first, h⟩ := Option.bind_eq_some_iff.mp h
    obtain ⟨⟨others, vs⟩, more, h⟩ := Option.bind_eq_some_iff.mp h
    cases h
    have here := sound.expression _ _ _ proper first
    have later := sound.moreArguments _ here.2 more
    exact ⟨List.forall_mem_cons.mpr ⟨here.1, later.1⟩, later.2⟩

/-! ## Signs, powers and what they hold -/

theorem isDecimal_one : IsDecimal 1 := ⟨0, by decide⟩

theorem written_ofName {name : String} (proper : IsName name) : (ofName name).Written := by
  unfold ofName
  split
  · exact ⟨1, rfl, isDecimal_one⟩
  · rename_i other
    exact ⟨proper, other⟩

theorem written_call {name : String} (proper : IsName name) {es : List Expr}
    (each : ∀ e ∈ es, e.Written) : (Expr.call (.ofName name) es).Written := by
  refine (Expr.written_call _ _).mpr ⟨?_, each⟩
  rw [NamedFunction.name_ofName]
  exact ⟨proper, rfl⟩

theorem written_direct {r : Rat} (decimal : IsDecimal r) {e : Expr} (h : e.Written) :
    (Expr.mul (.number (.exact r)) e).Written := by
  have numeral : (Expr.number (.exact r)).Written := ⟨r, rfl, decimal⟩
  exact (Expr.written_node _ _).mpr
    ⟨le_refl 2, List.forall_mem_cons.mpr ⟨numeral, List.forall_mem_singleton.mpr h⟩⟩

theorem sound_signed_succ {depth : Nat} (sign : Sound (signed depth))
    (power : Sound (Reader.power depth)) : Sound (signed (depth + 1)) := by
  intro ts e rest proper h
  unfold signed at h
  split at h
  · rename_i us same
    cases same
    obtain ⟨⟨inner, vs⟩, here, h⟩ := Option.bind_eq_some_iff.mp h
    cases h
    have inside := sign _ _ _ (allProper_tail proper) here
    exact ⟨Expr.written_negate inside.1, inside.2⟩
  · rename_i same _
    cases same
    exact power _ _ _ proper h
  · cases h

theorem sound_power_succ {depth : Nat} (sign : Sound (signed depth))
    (primary : Sound (Reader.primary depth)) : Sound (power (depth + 1)) := by
  intro ts e rest proper h
  rw [power] at h
  obtain ⟨⟨base, us⟩, here, h⟩ := Option.bind_eq_some_iff.mp h
  have left := primary _ _ _ proper here
  split at h
  · rename_i same
    cases same
    obtain ⟨⟨exponent, vs⟩, there, h⟩ := Option.bind_eq_some_iff.mp h
    cases h
    have right := sign _ _ _ (allProper_tail left.2) there
    exact ⟨written_two rfl left.1 right.1, right.2⟩
  · cases h
    exact left

theorem sound_primary_succ {depth : Nat} (sign : Sound (signed depth))
    (power : Sound (Reader.power depth)) : Sound (primary (depth + 1)) := by
  intro ts e rest proper h
  unfold primary at h
  split at h
  · rename_i same
    cases same
    exact sign.bracketed _ _ _ (allProper_tail proper) h
  · rename_i x name us same
    cases same
    have decimal : IsDecimal x := proper _ List.mem_cons_self
    split at h
    · cases h
      exact ⟨⟨x, rfl, decimal⟩, allProper_tail (allProper_tail proper)⟩
    · obtain ⟨⟨factor, vs⟩, here, h⟩ := Option.bind_eq_some_iff.mp h
      cases h
      have inside := power _ _ _ (allProper_tail proper) here
      exact ⟨written_direct decimal inside.1, inside.2⟩
  · rename_i x us same
    cases same
    have decimal : IsDecimal x := proper _ List.mem_cons_self
    obtain ⟨⟨factor, vs⟩, here, h⟩ := Option.bind_eq_some_iff.mp h
    cases h
    have inside := power _ _ _ (allProper_tail proper) here
    exact ⟨written_direct decimal inside.1, inside.2⟩
  · rename_i x us _ _ _
    cases h
    have decimal : IsDecimal x := proper _ List.mem_cons_self
    exact ⟨⟨x, rfl, decimal⟩, allProper_tail proper⟩
  · rename_i name us same
    cases same
    have named : IsName name := proper _ List.mem_cons_self
    obtain ⟨⟨args, vs⟩, here, h⟩ := Option.bind_eq_some_iff.mp h
    cases h
    have inside := sign.arguments (allProper_tail (allProper_tail proper)) here
    exact ⟨written_call named inside.1, inside.2⟩
  · rename_i name us _ _
    cases h
    have named : IsName name := proper _ List.mem_cons_self
    exact ⟨written_ofName named, allProper_tail proper⟩
  · cases h

theorem sound_signed (depth : Nat) :
    Sound (signed depth) ∧ Sound (power depth) ∧ Sound (primary depth) := by
  induction depth with
  | zero =>
    refine ⟨?_, ?_, ?_⟩
    all_goals
      intro ts e rest _ h
      cases h
  | succ depth ih =>
    obtain ⟨sign, power, primary⟩ := ih
    exact ⟨sound_signed_succ sign power, sound_power_succ sign primary,
      sound_primary_succ sign power⟩

end Reader

/-- Text is read as a tree that can be written again. -/
theorem Expr.written_parse? {text : String} {e : Expr} (h : parse? text = some e) : e.Written := by
  obtain ⟨ts, lexed, h⟩ := Option.bind_eq_some_iff.mp h
  have proper := Token.allProper_ofChars? lexed
  have sound := (Reader.sound_signed (3 * ts.length + 3)).1.expression
  unfold ofTokens? at h
  split at h
  · rename_i found
    cases h
    exact (sound _ _ _ proper found).1
  · cases h

end SymbolicAlgebra
