import SymbolicAlgebra.Proofs.GridPlacement
import SymbolicAlgebra.Proofs.Parts
import SymbolicAlgebra.Proofs.ReadBack

/-! Layouts of one row. Without quotients and powers an expression is laid out in one row, and that
row is its text unless a shift is shifted: the layout puts the inner one in brackets, the text does
not. -/
namespace SymbolicAlgebra

/-! ## Grids of one row -/

namespace Grid

theorem maxOf_map_zero {α : Type} (xs : List α) : maxOf (xs.map fun _ => 0) = 0 := by
  induction xs with
  | nil => rfl
  | cons x xs ih => exact ih

theorem padVertically_zero (g : Grid) : g.padVertically 0 0 = g := by
  simp [padVertically]

theorem joinRows_ofText (texts : List String) :
    joinRows 1 (texts.map ofText) = [(String.join texts).toList] := by
  induction texts with
  | nil => rfl
  | cons text texts ih => simp [joinRows, ih, ofText]

theorem beside_ofText (texts : List String) :
    beside (texts.map ofText) = ofText (String.join texts) := by
  have above : maxOf ((texts.map ofText).map baseline) = 0 := by
    rw [List.map_map]
    exact maxOf_map_zero texts
  have below : maxOf ((texts.map ofText).map depth) = 0 := by
    rw [List.map_map]
    exact maxOf_map_zero texts
  simp only [beside, above, below, Nat.zero_sub, padVertically_zero, List.map_id', Nat.zero_add,
    joinRows_ofText]
  rfl

theorem beside_two (s t : String) : beside [ofText s, ofText t] = ofText (s ++ t) := by
  have both := beside_ofText [s, t]
  simpa using both

theorem parenthesized_ofText (text : String) :
    (ofText text).parenthesized = ofText ("(" ++ text ++ ")") := by
  have parts := beside_ofText ["(", text, ")"]
  have row : (ofText text).height ≤ 1 := le_refl 1
  rw [parenthesized, if_pos row]
  simpa [String.append_assoc] using parts

theorem operand_ofText (brackets : Bool) (text : String) :
    operand brackets (ofText text) = ofText (bracketed brackets text) := by
  cases brackets with
  | true => exact parenthesized_ofText text
  | false => rfl

theorem zipWith_operand_ofText (brackets : List Bool) (texts : List String) :
    List.zipWith operand brackets (texts.map ofText) =
      (List.zipWith bracketed brackets texts).map ofText := by
  induction texts generalizing brackets with
  | nil => simp
  | cons text texts ih =>
    cases brackets with
    | nil => rfl
    | cons b brackets => simp [ih, operand_ofText]

theorem intersperse_ofText (separator : String) (texts : List String) :
    (texts.map ofText).intersperse (ofText separator) =
      (texts.intersperse separator).map ofText := by
  induction texts with
  | nil => rfl
  | cons text texts ih =>
    cases texts with
    | nil => rfl
    | cons next texts =>
      rw [List.map_cons, List.map_cons, List.intersperse_cons_cons, ← List.map_cons, ih,
        List.intersperse_cons_cons, List.map_cons, List.map_cons]

theorem join_intersperse (separator : String) (texts : List String) :
    String.join (texts.intersperse separator) = separatedBy separator texts := by
  induction texts with
  | nil => rfl
  | cons text texts ih =>
    cases texts with
    | nil => simp [separatedBy]
    | cons next texts =>
      rw [List.intersperse_cons_cons, String.join_cons, String.join_cons, ih, ← String.append_assoc]
      rfl

theorem separated_ofText (separator : String) (texts : List String) :
    separated separator (texts.map ofText) = ofText (separatedBy separator texts) := by
  rw [separated, intersperse_ofText, beside_ofText, join_intersperse]

end Grid

/-! ## Texts and rows -/

/-- The row is the text where `same` holds, and longer than the text elsewhere. -/
structure Agrees (same : Prop) (text row : String) : Prop where
  eq_of_same : same → row = text
  lt_of_not : ¬ same → text.length < row.length

namespace Agrees

variable {p q : Prop} {s s' t t' : String}

theorem refl (s : String) : Agrees True s s := ⟨fun _ => rfl, fun other => absurd trivial other⟩

theorem congr (h : Agrees p s s') (iff : q ↔ p) : Agrees q s s' := by
  obtain rfl : q = p := propext iff
  exact h

theorem length_le (h : Agrees p s s') : s.length ≤ s'.length := by
  by_cases same : p
  · rw [h.eq_of_same same]
  · exact (h.lt_of_not same).le

theorem eq_iff (h : Agrees p s s') : s' = s ↔ p := by
  refine ⟨fun same => ?_, h.eq_of_same⟩
  by_contra other
  have longer := h.lt_of_not other
  rw [same] at longer
  exact lt_irrefl _ longer

theorem append (left : Agrees p s s') (right : Agrees q t t') :
    Agrees (p ∧ q) (s ++ t) (s' ++ t') := by
  constructor
  · rintro ⟨hp, hq⟩
    rw [left.eq_of_same hp, right.eq_of_same hq]
  · intro other
    have := left.length_le
    have := right.length_le
    rw [String.length_append, String.length_append]
    by_cases hp : p
    · have := right.lt_of_not fun hq => other ⟨hp, hq⟩
      omega
    · have := left.lt_of_not hp
      omega

theorem bracketed (h : Agrees p s s') (brackets : Bool) :
    Agrees p (bracketed brackets s) (SymbolicAlgebra.bracketed brackets s') := by
  cases brackets with
  | true => exact (((refl "(").append h).append (refl ")")).congr (by simp)
  | false => exact h

/-- Brackets that only the row has. -/
theorem extra (h : Agrees p s s') :
    Agrees False (SymbolicAlgebra.bracketed false s) (SymbolicAlgebra.bracketed true s') := by
  refine ⟨nofun, fun _ => ?_⟩
  have := h.length_le
  have brackets : ("(" ++ s' ++ ")").length = 1 + s'.length + 1 := by
    rw [String.length_append, String.length_append]
    rfl
  rw [SymbolicAlgebra.bracketed, SymbolicAlgebra.bracketed, if_neg Bool.false_ne_true, if_pos rfl,
    brackets]
  omega

variable {xs : List Expr} {same : Expr → Prop} {text row : Expr → String}

/-- Texts and rows with the same brackets and separators agree where all operands do. -/
theorem separated (each : ∀ x ∈ xs, Agrees (same x) (text x) (row x)) (separator : String)
    (brackets : List Bool) (count : brackets.length = xs.length) :
    Agrees (∀ x ∈ xs, same x)
      (separatedBy separator (List.zipWith SymbolicAlgebra.bracketed brackets (xs.map text)))
      (separatedBy separator (List.zipWith SymbolicAlgebra.bracketed brackets (xs.map row))) := by
  induction xs generalizing brackets with
  | nil => exact (refl _).congr (by simp)
  | cons x xs ih =>
    obtain ⟨here, there⟩ := List.forall_mem_cons.mp each
    cases brackets with
    | nil => cases count
    | cons b brackets =>
      have first := here.bracketed b
      cases xs with
      | nil =>
        cases brackets with
        | nil => exact first.congr (by simp)
        | cons _ _ => cases count
      | cons y ys =>
        cases brackets with
        | nil => cases count
        | cons b' brackets =>
          have rest := ih there (b' :: brackets) (Nat.succ.inj count)
          exact ((first.append (refl separator)).append rest).congr (by simp)

end Agrees

namespace Expr

/-- A node that is laid out in one row if its operands are: it has the operands that its operator
takes, and is neither a quotient nor a power. -/
def FitsOneRow : Expr → Prop
  | .node op xs => op.Takes xs.length ∧ op ≠ .divide ∧ op ≠ .power
  | _ => True

/-- The left side of a shift is no shift itself. -/
def HasPlainShift : Expr → Prop
  | .node op (a :: _) => op.binding = .shift → a.binding ≠ .shift
  | _ => True

instance (op : Operator) (count : Nat) : Decidable (op.Takes count) :=
  inferInstanceAs (Decidable (if op.isAssociative then 2 ≤ count else count = 2))

instance : DecidablePred FitsOneRow
  | .node _ _ => inferInstanceAs (Decidable (_ ∧ _ ∧ _))
  | .number _ | .complex _ | .ident _ | .call _ _ => .isTrue trivial

instance : DecidablePred HasPlainShift
  | .node _ (_ :: _) => inferInstanceAs (Decidable (_ → _))
  | .number _ | .complex _ | .ident _ | .call _ _ | .node _ [] => .isTrue trivial

/-- Which operands the layout puts in brackets. -/
def rowBrackets (op : Operator) (xs : List Expr) : List Bool :=
  if op.binding = .shift then xs.map fun e => e.binding.noTighter .shift else operandBrackets op xs

theorem noTighter_product (b : Binding) : b.noTighter .product = b.looser .sign := by
  cases b <;> rfl

theorem noTighter_of_ne {b c : Binding} (other : b ≠ c) : b.noTighter c = b.looser c := by
  have ranks : b.rank ≠ c.rank := fun same => other (Binding.eq_of_rank same)
  exact decide_eq_decide.mpr (by omega)

theorem noTighter_bitwise {op : Operator} (bitwise : op = .bitAnd ∨ op = .bitOr ∨ op = .bitXor)
    (e : Expr) : e.binding.noTighter op.binding = (e.binding.looser op.binding || e.isNode op) := by
  cases found : e.isNode op with
  | true =>
    cases e with
    | node o xs =>
      obtain rfl := eq_of_beq found
      rcases bitwise with rfl | rfl | rfl <;> rfl
    | number _ | complex _ | ident _ | call _ _ => cases found
  | false =>
    rw [Bool.or_false]
    refine noTighter_of_ne fun same => ?_
    rw [isNode_of_bitwise bitwise same] at found
    cases found

theorem operandBrackets_shift {op : Operator} (shift : op.binding = .shift) (a b : Expr) :
    operandBrackets op [a, b] = [a.binding.looser .shift, b.binding.noTighter .shift] := by
  cases op with
  | leftShift | rightShift => rfl
  | _ => cases shift

theorem binary_of_shift {op : Operator} (shift : op.binding = .shift) : op.isAssociative = false := by
  cases op with
  | leftShift | rightShift => rfl
  | _ => cases shift

theorem nodeText_eq {op : Operator} {xs : List Expr} {texts : List String}
    (takes : op.Takes xs.length) (count : texts.length = xs.length)
    (product : op = .multiply → directFactor? xs = none ∧ isOpposite xs = false) :
    nodeText op xs texts =
      separatedBy (separator op) (List.zipWith bracketed (operandBrackets op xs) texts) := by
  cases op with
  | add | bitAnd | bitOr | bitXor => rfl
  | multiply => exact nodeText_product (product rfl).1 (product rfl).2 count
  | subtract | divide | power | modulus | leftShift | rightShift =>
    exact (isPlain_binary takes rfl).text texts count

/-- Operands that stand between signs. Between brackets and fractions only shifts differ from the
text. -/
theorem nodeGrid_eq {op : Operator} {xs : List Expr} {grids : List Grid}
    (fits : (node op xs).FitsOneRow) (quotients : ∀ x ∈ xs, x.isNode .divide = false)
    (count : grids.length = xs.length)
    (product : op = .multiply → directFactor? xs = none ∧ isOpposite xs = false) :
    nodeGrid op xs grids =
      .separated (separator op) (List.zipWith Grid.operand (rowBrackets op xs) grids) := by
  obtain ⟨takes, notQuotient, notPower⟩ := fits
  have generic (brackets : xs.map (fun e => e.binding.noTighter op.binding) = rowBrackets op xs) :
      Grid.separated (" " ++ op.symbol ++ " ") (List.zipWith Grid.operand
        (xs.map fun e => e.binding.noTighter op.binding) grids) =
      .separated (separator op) (List.zipWith Grid.operand (rowBrackets op xs) grids) := by
    rw [brackets, separator, if_neg notPower]
  cases op with
  | add => rfl
  | subtract =>
    obtain ⟨a, b, rfl⟩ := operands_of_binary takes rfl
    obtain ⟨f, g, rfl⟩ := List.length_eq_two.mp count
    have bare : b.isNode .divide = false := quotients b (by simp)
    rw [nodeGrid, bare, Bool.not_false, Bool.and_true]
    rfl
  | multiply =>
    obtain ⟨direct, opposite⟩ := product rfl
    have brackets : xs.map factorBrackets = rowBrackets .multiply xs :=
      List.map_congr_left fun x member => by simp [factorBrackets, quotients x member]
    simp only [nodeGrid, productGrid, direct, opposite, brackets]
    rfl
  | divide => exact absurd rfl notQuotient
  | power => exact absurd rfl notPower
  | modulus => exact generic (List.map_congr_left fun x _ => noTighter_product x.binding)
  | bitAnd => exact generic (List.map_congr_left fun x _ => noTighter_bitwise (.inl rfl) x)
  | bitOr => exact generic (List.map_congr_left fun x _ => noTighter_bitwise (.inr (.inl rfl)) x)
  | bitXor => exact generic (List.map_congr_left fun x _ => noTighter_bitwise (.inr (.inr rfl)) x)
  | leftShift => exact generic rfl
  | rightShift => exact generic rfl

theorem rowBrackets_of_plain {op : Operator} {xs : List Expr} (takes : op.Takes xs.length)
    (plain : (node op xs).HasPlainShift) : rowBrackets op xs = operandBrackets op xs := by
  by_cases shift : op.binding = .shift
  · obtain ⟨a, b, rfl⟩ := operands_of_binary takes (binary_of_shift shift)
    rw [rowBrackets, if_pos shift, operandBrackets_shift shift, List.map_cons,
      noTighter_of_ne (plain shift)]
    rfl
  · exact if_neg shift

theorem shifted_of_not_plain {op : Operator} {xs : List Expr} (takes : op.Takes xs.length)
    (chained : ¬ (node op xs).HasPlainShift) :
    ∃ a b, xs = [a, b] ∧ op.binding = .shift ∧ a.binding = .shift := by
  have shift : op.binding = .shift := by
    by_contra other
    cases xs with
    | nil => exact chained trivial
    | cons a rest => exact chained fun same => absurd same other
  obtain ⟨a, b, rfl⟩ := operands_of_binary takes (binary_of_shift shift)
  refine ⟨a, b, rfl, shift, ?_⟩
  by_contra other
  exact chained fun _ => other

/-- A shift that is shifted has brackets in the row only. -/
theorem agrees_operands {op : Operator} {xs : List Expr} (takes : op.Takes xs.length)
    {same : Expr → Prop} {text row : Expr → String}
    (each : ∀ x ∈ xs, Agrees (same x) (text x) (row x)) (separator : String) :
    Agrees ((node op xs).HasPlainShift ∧ ∀ x ∈ xs, same x)
      (separatedBy separator (List.zipWith bracketed (operandBrackets op xs) (xs.map text)))
      (separatedBy separator (List.zipWith bracketed (rowBrackets op xs) (xs.map row))) := by
  by_cases plain : (node op xs).HasPlainShift
  · rw [rowBrackets_of_plain takes plain]
    have operands := Agrees.separated each separator _ (length_operandBrackets op xs)
    exact operands.congr (and_iff_right plain)
  · obtain ⟨a, b, rfl, shift, inner⟩ := shifted_of_not_plain takes plain
    have brackets : rowBrackets op [a, b] =
        [a.binding.noTighter .shift, b.binding.noTighter .shift] := if_pos shift
    rw [brackets, operandBrackets_shift shift, inner]
    have left := (each a (by simp)).extra
    have right := (each b (by simp)).bracketed (b.binding.noTighter .shift)
    refine ((left.append (Agrees.refl separator)).append right).congr ?_
    simp [plain]

/-! ## Layouts of one row -/

theorem isNode_divide_of_fits {e : Expr} (fits : e.FitsOneRow) : e.isNode .divide = false := by
  cases e with
  | node op xs => exact beq_eq_false_iff_ne.mpr fits.2.1
  | number _ | complex _ | ident _ | call _ _ => rfl

section Operands

variable {xs : List Expr} {same : Expr → Prop} {row : Expr → String}

theorem map_layout (rows : ∀ x ∈ xs, x.layout = .ofText (row x)) :
    layoutAll xs = (xs.map row).map Grid.ofText := by
  rw [Grid.layoutAll_eq_map, List.map_map]
  exact List.map_congr_left rows

theorem zipWith_no_brackets (text : Expr → String) :
    List.zipWith bracketed (xs.map fun _ => false) (xs.map text) = xs.map text := by
  induction xs with
  | nil => rfl
  | cons x xs ih => exact congrArg (text x :: ·) ih

theorem layout_call (f : NamedFunction) (rows : ∀ x ∈ xs, x.layout = .ofText (row x)) :
    (call f xs).layout = .ofText (f.name ++ "(" ++ separatedBy ", " (xs.map row) ++ ")") := by
  rw [layout, map_layout rows, callGrid]
  have args : (if ((xs.map row).map Grid.ofText).isEmpty then .ofText ""
      else Grid.separated ", " ((xs.map row).map Grid.ofText)) =
      .ofText (separatedBy ", " (xs.map row)) := by
    cases xs with
    | nil => rfl
    | cons x xs => exact Grid.separated_ofText ", " _
  simp only [args, Grid.parenthesized_ofText, Grid.beside_two, String.append_assoc]

theorem agrees_call (f : NamedFunction) (each : ∀ x ∈ xs, Agrees (same x) x.text (row x)) :
    Agrees (∀ x ∈ xs, same x) (call f xs).text
      (f.name ++ "(" ++ separatedBy ", " (xs.map row) ++ ")") := by
  have args := Agrees.separated each ", " (xs.map fun _ => false) (List.length_map _)
  rw [zipWith_no_brackets, zipWith_no_brackets] at args
  rw [text, textAll_eq_map]
  exact (((Agrees.refl (f.name ++ "(")).append args).append (Agrees.refl ")")).congr (by simp)

end Operands

/-- A product that is written directly or as a sign has a numeral and another factor. -/
theorem exists_pair_of_special {xs : List Expr}
    (special : ¬ (directFactor? xs = none ∧ isOpposite xs = false)) :
    ∃ x b, xs = [.number x, b] := by
  by_contra other
  refine special ⟨?_, ?_⟩
  · unfold directFactor?
    split
    · exact absurd ⟨_, _, rfl⟩ other
    · rfl
  · unfold isOpposite
    split
    · exact absurd ⟨_, _, rfl⟩ other
    · rfl

theorem exists_row_special {x : Numeral} {b : Expr} {p : Prop} {row : String}
    (special : ¬ (directFactor? [.number x, b] = none ∧ isOpposite [.number x, b] = false))
    (bare : b.isNode .divide = false) (agrees : Agrees p b.text row) (g : Grid) :
    ∃ line, nodeGrid .multiply [.number x, b] [g, .ofText row] = .ofText line ∧
      Agrees p (node .multiply [.number x, b]).text line := by
  cases direct : directFactor? [.number x, b] with
  | some factor =>
    refine ⟨directText factor.1 ++ row, ?_, ?_⟩
    · simp only [nodeGrid, productGrid, direct, Grid.beside_two]
    · simp only [text, textAll, nodeText, direct]
      exact ((Agrees.refl (directText factor.1)).append agrees).congr (by simp)
  | none =>
    have opposite : isOpposite [.number x, b] = true := by
      by_contra other
      exact special ⟨direct, Bool.not_eq_true _ ▸ other⟩
    refine ⟨"-" ++ bracketed (b.binding.looser .sign) row, ?_, ?_⟩
    · simp only [nodeGrid, productGrid, direct, opposite, factorBrackets, bare, Bool.not_false,
        Bool.and_true, Grid.operand_ofText, Grid.beside_two]
    · simp only [text, textAll, nodeText, direct, opposite, if_true]
      exact ((Agrees.refl "-").append (agrees.bracketed _)).congr (by simp)

theorem exists_row_node {op : Operator} {xs : List Expr} {row : Expr → String}
    (fits : (node op xs).AllParts FitsOneRow)
    (rows : ∀ x ∈ xs, x.layout = .ofText (row x))
    (each : ∀ x ∈ xs, Agrees (x.AllParts HasPlainShift) x.text (row x)) :
    ∃ line, (node op xs).layout = .ofText line ∧
      Agrees ((node op xs).AllParts HasPlainShift) (node op xs).text line := by
  obtain ⟨here, below⟩ := allParts_node.mp fits
  have quotients : ∀ x ∈ xs, x.isNode .divide = false := fun x member =>
    isNode_divide_of_fits (below x member).here
  rw [layout, map_layout rows]
  by_cases product : op = .multiply → directFactor? xs = none ∧ isOpposite xs = false
  · rw [nodeGrid_eq here quotients (by simp) product, Grid.zipWith_operand_ofText,
      Grid.separated_ofText, text, textAll_eq_map, nodeText_eq here.1 (by simp) product]
    exact ⟨_, rfl, (agrees_operands here.1 each _).congr allParts_node⟩
  · rw [Classical.not_imp] at product
    obtain ⟨rfl, special⟩ := product
    obtain ⟨x, b, rfl⟩ := exists_pair_of_special special
    obtain ⟨line, drawn, agrees⟩ := exists_row_special special (quotients b (by simp))
      (each b (by simp)) (.ofText (row (.number x)))
    refine ⟨line, drawn, agrees.congr ?_⟩
    rw [allParts_node]
    simp [HasPlainShift, Operator.binding, AllParts]

/-- One row, which is the text unless a shift in it is shifted. -/
theorem exists_row {e : Expr} (fits : e.AllParts FitsOneRow) :
    ∃ row, e.layout = .ofText row ∧ Agrees (e.AllParts HasPlainShift) e.text row := by
  have leaf {e : Expr} (drawn : e.layout = .ofText e.text) (plain : e.AllParts HasPlainShift) :
      ∃ row, e.layout = .ofText row ∧ Agrees (e.AllParts HasPlainShift) e.text row :=
    ⟨e.text, drawn, (Agrees.refl e.text).congr (iff_true_intro plain)⟩
  induction e with
  | number x => exact leaf rfl trivial
  | complex z => exact leaf rfl trivial
  | ident name => exact leaf rfl trivial
  | call f xs ih =>
    have below := fun x member => ih x member ((allParts_call.mp fits).2 x member)
    choose! row rows each using below
    refine ⟨_, layout_call f rows, (agrees_call f each).congr ?_⟩
    rw [allParts_call]
    exact and_iff_right trivial
  | node op xs ih =>
    have below := fun x member => ih x member (fits.operands x member)
    choose! row rows each using below
    exact exists_row_node fits rows each

/-- An expression with the operands that its operators take, without quotients and powers, is laid out
in one row. The row is the text exactly if no shift is the left side of a shift. -/
theorem layout_row_iff {e : Expr} (fits : e.AllParts FitsOneRow) :
    e.layout.height = 1 ∧ (e.layout.rows = [e.text.toList] ↔ e.AllParts HasPlainShift) := by
  obtain ⟨row, drawn, agrees⟩ := exists_row fits
  rw [drawn, ← agrees.eq_iff]
  refine ⟨rfl, ?_⟩
  simp [Grid.ofText, String.toList_inj]

/-- A shift on the right side, a sign before a difference and a call with two arguments. -/
theorem layout_row_iff_of_right_shift :
    let e := Expr.node .leftShift [.call (.other "f") [.ident "x", mul (ofInt (-1))
      (sub (.ident "y") (ofInt 2))], .node .rightShift [.ident "a", .ident "b"]]
    e.AllParts FitsOneRow ∧ e.AllParts HasPlainShift ∧ e.text = "f(x, -(y - 2)) << (a >> b)" ∧
      e.layout.height = 1 ∧ (e.layout.rows = [e.text.toList] ↔ e.AllParts HasPlainShift) := by
  intro e
  have fits : e.AllParts FitsOneRow := by decide
  exact ⟨fits, by decide, by decide +kernel, layout_row_iff fits⟩

/-- A shift of a shift: the layout has brackets that the text leaves out. -/
theorem layout_row_of_shifted_shift :
    let e := Expr.node .leftShift [.node .leftShift [.ident "a", .ident "b"], .ident "c"]
    e.AllParts FitsOneRow ∧ e.layout.rows = ["(a << b) << c".toList] ∧
      e.text = "a << b << c" ∧ e.layout.rows ≠ [e.text.toList] := by
  decide +kernel

end Expr

end SymbolicAlgebra
