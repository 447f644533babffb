import SymbolicAlgebra.Proofs.DecimalText

/-! Which characters are read as which tokens. A name or a number ends only where a character follows
that cannot continue it, so each piece of text is read the same way before any text that breaks it
off. -/
namespace SymbolicAlgebra

/-! ## Classes of characters -/

theorem eq_of_isBlank {c : Char} (h : isBlank c = true) :
    c = ' ' ∨ c = '\t' ∨ c = '\r' ∨ c = '\n' := by
  simpa [isBlank, or_assoc] using h

theorem isBlank_of_isDigit {c : Char} (h : c.isDigit = true) : isBlank c = false := by
  by_contra blank
  rw [Bool.not_eq_false] at blank
  rcases eq_of_isBlank blank with rfl | rfl | rfl | rfl <;> exact absurd h (by decide)

theorem isBlank_of_startsName {c : Char} (h : startsName c = true) : isBlank c = false := by
  by_contra blank
  rw [Bool.not_eq_false] at blank
  rcases eq_of_isBlank blank with rfl | rfl | rfl | rfl <;> exact absurd h (by decide)

theorem toNat_of_isDigit {c : Char} (h : c.isDigit = true) : 48 ≤ c.toNat ∧ c.toNat ≤ 57 := by
  simp only [Char.isDigit, Bool.and_eq_true, decide_eq_true_eq] at h
  exact h

theorem startsName_of_isDigit {c : Char} (h : c.isDigit = true) : startsName c = false := by
  have bounds := toNat_of_isDigit h
  have eq : c = Char.ofNat c.toNat := (Char.ofNat_toNat c).symm
  generalize c.toNat = n at bounds eq
  subst eq
  have all : ∀ n ≤ 57, 48 ≤ n → startsName (Char.ofNat n) = false := by decide
  exact all n bounds.2 bounds.1

theorem isDigit_of_startsName {c : Char} (h : startsName c = true) : c.isDigit = false := by
  by_contra digit
  rw [Bool.not_eq_false] at digit
  rw [startsName_of_isDigit digit] at h
  cases h

theorem isDigit_of_not_continuesName {c : Char} (h : continuesName c = false) :
    c.isDigit = false := by
  by_contra digit
  rw [Bool.not_eq_false] at digit
  simp [continuesName, isNumeric, digit] at h

/-! ## Steps of the reader -/

namespace Token

theorem ofChars?_nil : ofChars? [] = some [] := by
  rw [ofChars?]

theorem ofChars?_blank {c : Char} (h : isBlank c = true) (cs : List Char) :
    ofChars? (c :: cs) = ofChars? cs := by
  rw [ofChars?, if_pos h]

theorem ofChars?_token {c : Char} {cs rest : List Char} {t : Token} (h : isBlank c = false)
    (found : first? c cs = some (t, rest)) :
    ofChars? (c :: cs) = (ofChars? rest).map (t :: ·) := by
  rw [ofChars?, if_neg (by simp [h])]
  split
  · rename_i none
    rw [none] at found
    cases found
  · rename_i some
    rw [some] at found
    cases found
    rfl

end Token

/-- No name or number continues with these characters. -/
def Breaks : List Char → Prop
  | [] => True
  | c :: _ => continuesName c = false ∧ c ≠ '.'

/-- The characters are read as the tokens before any text that breaks them off. -/
def LexesTo (cs : List Char) (ts : List Token) : Prop :=
  ∀ rest, Breaks rest → Token.ofChars? (cs ++ rest) = (Token.ofChars? rest).map (ts ++ ·)

/-- The characters are read as the tokens before any text at all. -/
def MarksTo (cs : List Char) (ts : List Token) : Prop :=
  ∀ rest, Token.ofChars? (cs ++ rest) = (Token.ofChars? rest).map (ts ++ ·)

theorem MarksTo.lexesTo {cs : List Char} {ts : List Token} (h : MarksTo cs ts) : LexesTo cs ts :=
  fun rest _ => h rest

theorem MarksTo.append {cs ds : List Char} {ts us : List Token} (first : MarksTo cs ts)
    (second : LexesTo ds us) : LexesTo (cs ++ ds) (ts ++ us) := by
  intro rest breaks
  rw [List.append_assoc, first, second rest breaks, Option.map_map]
  simp [Function.comp_def]

theorem MarksTo.trans {cs ds : List Char} {ts us : List Token} (first : MarksTo cs ts)
    (second : MarksTo ds us) : MarksTo (cs ++ ds) (ts ++ us) := by
  intro rest
  rw [List.append_assoc, first, second rest, Option.map_map]
  simp [Function.comp_def]

theorem LexesTo.append {cs ds : List Char} {ts us : List Token} (first : LexesTo cs ts)
    (breaks : Breaks ds) (nonempty : ds ≠ []) (second : LexesTo ds us) :
    LexesTo (cs ++ ds) (ts ++ us) := by
  intro rest restBreaks
  have broken : Breaks (ds ++ rest) := by
    cases ds with
    | nil => exact absurd rfl nonempty
    | cons d ds => exact breaks
  rw [List.append_assoc, first _ broken, second rest restBreaks, Option.map_map]
  simp [Function.comp_def]

theorem LexesTo.ofChars? {cs : List Char} {ts : List Token} (h : LexesTo cs ts) :
    Token.ofChars? cs = some ts := by
  have := h [] trivial
  simpa [Token.ofChars?_nil] using this

/-! ## Marks -/

theorem marksTo_blank : MarksTo [' '] [] := by
  intro rest
  rw [List.singleton_append, Token.ofChars?_blank (by decide)]
  simp

/-- A character that is a token by itself. -/
theorem marksTo_char {c : Char} {t : Token} (blank : isBlank c = false)
    (token : ∀ cs, Token.first? c cs = some (t, cs)) : MarksTo [c] [t] := by
  intro rest
  rw [List.singleton_append, Token.ofChars?_token blank (token rest)]
  rfl

theorem marksTo_twice {c : Char} {t : Token} (blank : isBlank c = false)
    (token : ∀ cs, Token.first? c (c :: cs) = some (t, cs)) : MarksTo [c, c] [t] := by
  intro rest
  rw [List.cons_append, List.singleton_append, Token.ofChars?_token blank (token rest)]
  rfl

/-- A mark between blanks. -/
theorem MarksTo.spaced {cs : List Char} {t : Token} (h : MarksTo cs [t]) :
    MarksTo (' ' :: (cs ++ [' '])) [t] :=
  marksTo_blank.trans (h.trans marksTo_blank)

/-- The sign of an operator with two operands, without blanks. -/
theorem marksTo_symbol (op : Operator) (h : op ≠ .power) : MarksTo op.symbol.toList [.op op] := by
  cases op with
  | power => exact absurd rfl h
  | bitXor => exact marksTo_twice (by decide) fun cs => rfl
  | leftShift => exact marksTo_twice (by decide) fun cs => rfl
  | rightShift => exact marksTo_twice (by decide) fun cs => rfl
  | add | subtract | multiply | divide | modulus | bitAnd | bitOr =>
    exact marksTo_char (by decide) fun cs => rfl

theorem marksTo_openParen : MarksTo ['('] [.openParen] := marksTo_char (by decide) fun _ => rfl

theorem marksTo_closeParen : MarksTo [')'] [.closeParen] := marksTo_char (by decide) fun _ => rfl

theorem marksTo_comma : MarksTo [','] [.comma] := marksTo_char (by decide) fun _ => rfl

/-- A caret is the sign of a power unless another one follows it. -/
theorem lexesTo_caret {c : Char} (h : c ≠ '^') (cs : List Char) :
    Token.ofChars? ('^' :: c :: cs) = (Token.ofChars? (c :: cs)).map (.op .power :: ·) := by
  refine Token.ofChars?_token (by decide) ?_
  unfold Token.first?
  rw [if_neg (by decide), if_neg (by decide)]
  split
  · rename_i same
    cases same
    exact absurd rfl h
  · rename_i no _
    cases no
  · rename_i no _
    cases no
  · rfl

/-! ## Numbers and names -/

theorem takeWhile_append_of_head {p : Char → Bool} {ds rest : List Char} (all : ∀ d ∈ ds, p d = true)
    (stop : ∀ c ∈ rest.head?, p c = false) :
    (ds ++ rest).takeWhile p = ds ∧ (ds ++ rest).dropWhile p = rest := by
  have ends : rest.takeWhile p = [] ∧ rest.dropWhile p = rest := by
    cases rest with
    | nil => exact ⟨rfl, rfl⟩
    | cons c cs =>
      have here : p c = false := stop c rfl
      simp [here]
  rw [List.takeWhile_append_of_pos all, List.dropWhile_append_of_pos all, ends.1, ends.2]
  simp

/-- The digits end where neither a digit nor a point follows. -/
theorem lexesTo_number {whole frac rest : List Char} {r : Rat} (h : IsDecimalText whole frac r)
    (stop : ∀ c ∈ rest.head?, c.isDigit = false ∧ c ≠ '.') :
    Token.ofChars? (decimalChars whole frac ++ rest) =
      (Token.ofChars? rest).map (.number r :: ·) := by
  obtain ⟨c, cs, rfl⟩ := List.exists_cons_of_ne_nil h.whole_ne_nil
  have lead : c.isDigit = true := h.whole_digits c List.mem_cons_self
  have digits : ∀ d ∈ cs, d.isDigit = true := fun d member =>
    h.whole_digits d (List.mem_cons_of_mem _ member)
  rw [decimalChars, List.append_assoc, List.cons_append]
  refine Token.ofChars?_token (isBlank_of_isDigit lead) ?_
  rw [← h.value]
  unfold Token.first?
  rw [if_pos lead]
  cases frac with
  | nil =>
    have split := takeWhile_append_of_head digits fun d member => (stop d member).1
    simp only [List.isEmpty_nil, ↓reduceIte, List.nil_append, split.1, split.2]
    split
    · exact absurd rfl (stop '.' rfl).2
    · rfl
  | cons d ds =>
    have point : ∀ e ∈ ('.' :: (d :: ds ++ rest)).head?, e.isDigit = false := by
      intro e member
      cases member
      decide
    have split := takeWhile_append_of_head digits point
    have here : d.isDigit = true := h.frac_digits d List.mem_cons_self
    have others : ∀ e ∈ ds, e.isDigit = true := fun e member =>
      h.frac_digits e (List.mem_cons_of_mem _ member)
    have last := takeWhile_append_of_head others fun e member => (stop e member).1
    simp only [List.isEmpty_cons, Bool.false_eq_true, ↓reduceIte, List.cons_append] at split ⊢
    simp only [split.1, split.2, here, ↓reduceIte, last.1, last.2]

/-- A name ends where a character follows that cannot be in one. -/
theorem lexesTo_name {c : Char} {cs : List Char} (first : startsName c = true)
    (others : ∀ d ∈ cs, continuesName d = true) :
    LexesTo (c :: cs) [.name (String.ofList (c :: cs))] := by
  intro rest breaks
  have stop : ∀ d ∈ rest.head?, continuesName d = false := by
    intro d member
    cases rest with
    | nil => cases member
    | cons e es =>
      cases member
      exact breaks.1
  have split := takeWhile_append_of_head others stop
  rw [List.cons_append]
  refine Token.ofChars?_token (isBlank_of_startsName first) ?_
  unfold Token.first?
  rw [if_neg (by simp [isDigit_of_startsName first]), if_pos first, split.1, split.2]

end SymbolicAlgebra
