import SymbolicAlgebra.Proofs.Congruence
import SymbolicAlgebra.Proofs.Lexing
import SymbolicAlgebra.Text.Linear

/-! The tokens of the text of an expression, written down without going through characters, and the
proof that the text is read as them. -/
namespace SymbolicAlgebra

/-! ## Trees that text is read as -/

/-- The characters of an identifier. -/
def IsName (name : String) : Prop :=
  ∃ c cs, name.toList = c :: cs ∧ startsName c = true ∧ ∀ d ∈ cs, continuesName d = true

/-- How many operands a node has: two or more where nested nodes mean the same as flat ones, and
else just two. -/
def Operator.Takes (op : Operator) (count : Nat) : Prop :=
  if op.isAssociative then 2 ≤ count else count = 2

namespace Expr

mutual

/-- A tree that text can be read as: numerals are decimals, complex numerals imaginary, names are
identifiers, and nodes have the operands that are read for them. -/
def Written : Expr → Prop
  | .number x => ∃ r, x = .exact r ∧ IsDecimal r
  | .complex z => ∃ r, z = ⟨.zero, .exact r⟩ ∧ IsDecimal r
  | .ident name => IsName name ∧ name ≠ "i"
  | .call f xs => (IsName f.name ∧ NamedFunction.ofName f.name = f) ∧ WrittenAll xs
  | .node op xs => op.Takes xs.length ∧ WrittenAll xs

def WrittenAll : List Expr → Prop
  | [] => True
  | x :: xs => Written x ∧ WrittenAll xs

end

theorem writtenAll_iff (xs : List Expr) : WrittenAll xs ↔ ∀ x ∈ xs, x.Written := by
  induction xs with
  | nil => simp [WrittenAll]
  | cons x xs ih => simp [WrittenAll, ih]

theorem written_call (f : NamedFunction) (xs : List Expr) :
    Written (.call f xs) ↔
      (IsName f.name ∧ NamedFunction.ofName f.name = f) ∧ ∀ x ∈ xs, x.Written := by
  rw [Written, writtenAll_iff]

theorem written_node (op : Operator) (xs : List Expr) :
    Written (.node op xs) ↔ op.Takes xs.length ∧ ∀ x ∈ xs, x.Written := by
  rw [Written, writtenAll_iff]

end Expr

/-! ## Tokens -/

def bracketedTokens (brackets : Bool) (ts : List Token) : List Token :=
  if brackets then .openParen :: (ts ++ [.closeParen]) else ts

/-- The lists with a token between them. -/
def tokensBetween (t : Token) : List (List Token) → List Token
  | [] => []
  | [ts] => ts
  | ts :: tss => ts ++ t :: tokensBetween t tss

/-- The sign of a rational and its magnitude. -/
def signTokens (r : Rat) : List Token := if r < 0 then [.op .subtract] else []

def numeralTokens : Numeral → List Token
  | .exact r => signTokens r ++ [.number |r|]
  | _ => []

/-- The unit alone where the magnitude is one. -/
def imaginaryTokens : Numeral → List Token
  | .exact r => signTokens r ++ if |r| = 1 then [.name "i"] else [.number |r|, .name "i"]
  | _ => []

namespace Expr

/-- Which operands stand in brackets. -/
def operandBrackets (op : Operator) (xs : List Expr) : List Bool :=
  match op, xs with
  | .add, xs => addendsBrackets xs
  | .subtract, [a, b] | .leftShift, [a, b] | .rightShift, [a, b] =>
    [a.binding.looser op.binding, b.binding.noTighter op.binding]
  | .bitAnd, xs | .bitOr, xs | .bitXor, xs =>
    xs.map fun e => e.binding.looser op.binding || e.isNode op
  | .power, xs => xs.map fun e => e.binding.looser .atom
  | _, xs => xs.map fun e => e.binding.looser .sign

/-- The tokens of a numeral factor in front of a name. -/
def directTokens (x : Numeral) : List Token :=
  if x = .ofInt (-1) then [.op .subtract] else numeralTokens x

/-- The tokens of a node from its operands and their tokens. -/
def nodeTokens (op : Operator) (xs : List Expr) (tss : List (List Token)) : List Token :=
  match op, xs, tss with
  | .multiply, [.number x, b], [ss, ts] =>
    if b.startsWithName then directTokens x ++ ts
    else if x = .ofInt (-1) then .op .subtract :: bracketedTokens (b.binding.looser .sign) ts
    else
      bracketedTokens ((number x).binding.looser .sign) ss ++
        .op .multiply :: bracketedTokens (b.binding.looser .sign) ts
  | op, xs, tss => tokensBetween (.op op) (List.zipWith bracketedTokens (operandBrackets op xs) tss)

mutual

/-- The tokens of the text of an expression. -/
def tokens : Expr → List Token
  | .number x => numeralTokens x
  | .complex z => imaginaryTokens z.im
  | .ident name => [.name name]
  | .call f xs =>
    .name f.name :: .openParen :: (tokensBetween .comma (tokensAll xs) ++ [.closeParen])
  | .node op xs => nodeTokens op xs (tokensAll xs)

def tokensAll : List Expr → List (List Token)
  | [] => []
  | x :: xs => tokens x :: tokensAll xs

end

theorem tokensAll_eq_map (xs : List Expr) : tokensAll xs = xs.map tokens := by
  induction xs with
  | nil => rfl
  | cons x xs ih => rw [tokensAll, ih, List.map_cons]

theorem textAll_eq_map (xs : List Expr) : textAll xs = xs.map text := by
  induction xs with
  | nil => rfl
  | cons x xs ih => rw [textAll, ih, List.map_cons]

/-! ## Three kinds of nodes -/

/-- A product of a numeral and a name or a power of one. -/
def IsDirect (op : Operator) (xs : List Expr) : Prop :=
  ∃ r b, op = .multiply ∧ xs = [.number (.exact r), b] ∧ b.startsWithName = true

/-- Any other product of minus one and a factor. -/
def IsSigned (op : Operator) (xs : List Expr) : Prop :=
  ∃ b, op = .multiply ∧ xs = [.number (.ofInt (-1)), b] ∧ b.startsWithName = false

/-- The sign between the operands of a node. -/
def separator (op : Operator) : String :=
  if op = .power then "^" else " " ++ op.symbol ++ " "

/-- A node whose operands stand between signs. -/
structure IsPlain (op : Operator) (xs : List Expr) : Prop where
  text : ∀ texts : List String, texts.length = xs.length →
    nodeText op xs texts =
      separatedBy (separator op) (List.zipWith bracketed (operandBrackets op xs) texts)
  tokens : ∀ tss : List (List Token), tss.length = xs.length →
    nodeTokens op xs tss =
      tokensBetween (.op op) (List.zipWith bracketedTokens (operandBrackets op xs) tss)
  sign : (op = .multiply ∧ isOpposite xs = true) = False

theorem operands_of_binary {op : Operator} {xs : List Expr} (h : op.Takes xs.length)
    (binary : op.isAssociative = false) : ∃ a b, xs = [a, b] := by
  have two : xs.length = 2 := by
    simpa [Operator.Takes, binary] using h
  exact List.length_eq_two.mp two

theorem isPlain_binary {op : Operator} {xs : List Expr} (h : op.Takes xs.length)
    (binary : op.isAssociative = false) : IsPlain op xs := by
  have operands := operands_of_binary h binary
  obtain ⟨a, b, rfl⟩ := operands
  constructor
  · intro texts two
    obtain ⟨s, t, rfl⟩ := List.length_eq_two.mp two
    cases op with
    | subtract | divide | power | modulus | leftShift | rightShift => rfl
    | add | multiply | bitAnd | bitOr | bitXor => cases binary
  · intro tss _
    cases op with
    | subtract | divide | power | modulus | leftShift | rightShift => rfl
    | add | multiply | bitAnd | bitOr | bitXor => cases binary
  · cases op with
    | multiply => cases binary
    | _ => simp

/-- A product that is neither written directly nor as a sign. -/
theorem nodeText_product {xs : List Expr} {texts : List String} (direct : directFactor? xs = none)
    (opposite : isOpposite xs = false) (count : texts.length = xs.length) :
    nodeText .multiply xs texts = separatedBy (separator .multiply)
      (List.zipWith bracketed (operandBrackets .multiply xs) texts) := by
  match xs, texts, count with
  | [], [], _ => rfl
  | [_], [_], _ =>
    simp only [nodeText, direct]
    rfl
  | [a, b], [s, t], _ =>
    simp only [nodeText, direct, opposite]
    rfl
  | _ :: _ :: _ :: _, _ :: _ :: _ :: _, _ =>
    simp only [nodeText, direct]
    rfl

/-- Two factors that are not written directly or as a sign. -/
theorem isPlain_two {a b : Expr} (direct : directFactor? [a, b] = none)
    (opposite : isOpposite [a, b] = false)
    (named : ∀ x, a = .number x → b.startsWithName = false) : IsPlain .multiply [a, b] := by
  constructor
  · intro texts
    exact nodeText_product direct opposite
  · intro tss two
    obtain ⟨ss, ts, rfl⟩ := List.length_eq_two.mp two
    cases a with
    | number x =>
      have other : x ≠ .ofInt (-1) := by simpa [isOpposite] using opposite
      simp only [nodeTokens, named x rfl, other, ↓reduceIte, Bool.false_eq_true]
      rfl
    | complex _ | ident _ | call _ _ | node _ _ => rfl
  · simp [opposite]

theorem isPlain_many {a b c : Expr} {xs : List Expr} : IsPlain .multiply (a :: b :: c :: xs) := by
  have direct : directFactor? (a :: b :: c :: xs) = none := by
    unfold directFactor?
    split
    · rename_i same
      cases same
    · rfl
  have opposite : isOpposite (a :: b :: c :: xs) = false := by
    unfold isOpposite
    split
    · rename_i same
      cases same
    · rfl
  constructor
  · intro texts
    exact nodeText_product direct opposite
  · intro tss length
    unfold nodeTokens
    split
    · simp at length
    · rfl
  · simp [opposite]

theorem kind_of_written {op : Operator} {xs : List Expr} (h : Written (.node op xs)) :
    IsDirect op xs ∨ IsSigned op xs ∨ IsPlain op xs := by
  obtain ⟨takes, written⟩ := (written_node op xs).mp h
  cases op with
  | subtract | divide | power | modulus | leftShift | rightShift =>
    exact .inr (.inr (isPlain_binary takes rfl))
  | add | bitAnd | bitOr | bitXor =>
    refine .inr (.inr ⟨fun texts _ => rfl, fun tss _ => rfl, ?_⟩)
    simp
  | multiply =>
    match xs, takes, written with
    | a :: b :: c :: xs, _, _ => exact .inr (.inr isPlain_many)
    | [a, b], _, written =>
      by_cases number : ∃ x, a = .number x
      · obtain ⟨x, rfl⟩ := number
        obtain ⟨r, rfl, -⟩ := written (.number x) List.mem_cons_self
        by_cases named : b.startsWithName = true
        · exact .inl ⟨r, b, rfl, rfl, named⟩
        rw [Bool.not_eq_true] at named
        by_cases sign : r = (-1 : Int)
        · exact .inr (.inl ⟨b, rfl, by rw [sign]; rfl, named⟩)
        · refine .inr (.inr (isPlain_two ?_ ?_ fun _ _ => named))
          · simp [directFactor?, named]
          · simpa [isOpposite, Numeral.ofInt] using sign
      · refine .inr (.inr (isPlain_two ?_ ?_ fun x same => absurd ⟨x, same⟩ number))
        · cases a with
          | number x => exact absurd ⟨x, rfl⟩ number
          | complex _ | ident _ | call _ _ | node _ _ => rfl
        · cases a with
          | number x => exact absurd ⟨x, rfl⟩ number
          | complex _ | ident _ | call _ _ | node _ _ => rfl
    | [_], takes, _ | [], takes, _ => simp [Operator.Takes, Operator.isAssociative] at takes

end Expr

/-! ## Texts read as tokens -/

/-- The text is read as the tokens. No text starts with a caret, so that one before it is the sign
of a power. -/
structure Writes (s : String) (ts : List Token) : Prop where
  lexes : LexesTo s.toList ts
  lead : ∃ c cs, s.toList = c :: cs ∧ c ≠ '^'

theorem Writes.bracketed {s : String} {ts : List Token} (h : Writes s ts) (brackets : Bool) :
    Writes (bracketed brackets s) (bracketedTokens brackets ts) := by
  cases brackets with
  | false => exact h
  | true =>
    have chars : (SymbolicAlgebra.bracketed true s).toList = ['('] ++ (s.toList ++ [')']) := by
      simp [SymbolicAlgebra.bracketed]
    constructor
    · rw [chars]
      have inner : LexesTo (s.toList ++ [')']) (ts ++ [.closeParen]) :=
        h.lexes.append ⟨by decide, by decide⟩ (by simp) marksTo_closeParen.lexesTo
      exact marksTo_openParen.append inner
    · exact ⟨'(', s.toList ++ [')'], chars, by decide⟩

/-- A sign that breaks off the text before it and is a token before any text. -/
structure Separates (sep : String) (t : Token) : Prop where
  nonempty : sep.toList ≠ []
  breaks : Breaks sep.toList
  lexes : ∀ c cs, c ≠ '^' →
    Token.ofChars? (sep.toList ++ c :: cs) = (Token.ofChars? (c :: cs)).map (t :: ·)

theorem separates_operator (op : Operator) : Separates (Expr.separator op) (.op op) := by
  by_cases power : op = .power
  · subst power
    have chars : (Expr.separator .power).toList = ['^'] := by decide
    constructor
    · simp [chars]
    · rw [chars]
      exact ⟨by decide, by decide⟩
    · intro c cs other
      rw [chars]
      exact lexesTo_caret other cs
  · have chars : (Expr.separator op).toList = ' ' :: (op.symbol.toList ++ [' ']) := by
      simp [Expr.separator, power]
    constructor
    · simp [chars]
    · rw [chars]
      exact ⟨by decide, by decide⟩
    · intro c cs _
      rw [chars]
      exact (marksTo_symbol op power).spaced (c :: cs)

theorem separates_comma : Separates ", " .comma where
  nonempty := by decide
  breaks := ⟨by decide, by decide⟩
  lexes c cs _ := marksTo_comma.trans marksTo_blank (c :: cs)

theorem Writes.between {s t sep : String} {ts us : List Token} {mark : Token} (first : Writes s ts)
    (separates : Separates sep mark) (second : Writes t us) :
    Writes (s ++ sep ++ t) (ts ++ mark :: us) := by
  have chars : (s ++ sep ++ t).toList = s.toList ++ (sep.toList ++ t.toList) := by simp
  constructor
  · rw [chars]
    have tail : LexesTo (sep.toList ++ t.toList) (mark :: us) := by
      intro rest breaks
      obtain ⟨c, cs, lead, other⟩ := second.lead
      rw [List.append_assoc, lead, List.cons_append, separates.lexes c _ other, ← List.cons_append,
        ← lead, second.lexes rest breaks, Option.map_map]
      rfl
    refine first.lexes.append ?_ ?_ tail
    · cases head : sep.toList with
      | nil => exact absurd head separates.nonempty
      | cons d ds =>
        have broken := separates.breaks
        rw [head] at broken
        exact broken
    · intro empty
      exact separates.nonempty (List.append_eq_nil_iff.mp empty).1
  · obtain ⟨c, cs, lead, other⟩ := first.lead
    exact ⟨c, cs ++ (sep.toList ++ t.toList), by rw [chars, lead]; rfl, other⟩

/-- Texts with a sign between them, one text at least. -/
theorem Writes.separated {sep : String} {mark : Token} (separates : Separates sep mark)
    {texts : List String} {tss : List (List Token)} (each : List.Forall₂ Writes texts tss)
    (nonempty : texts ≠ []) : Writes (separatedBy sep texts) (tokensBetween mark tss) := by
  induction each with
  | nil => exact absurd rfl nonempty
  | cons first rest ih =>
    rename_i text ts others tss
    cases rest with
    | nil => exact first
    | cons second more => exact first.between separates (ih (by simp))

/-- A name with arguments in brackets, perhaps none. -/
theorem Writes.arguments {name : String} (h : Writes name [.name name]) {texts : List String}
    {tss : List (List Token)} (each : List.Forall₂ Writes texts tss) :
    Writes (name ++ "(" ++ separatedBy ", " texts ++ ")")
      (.name name :: .openParen :: (tokensBetween .comma tss ++ [.closeParen])) := by
  have chars : (name ++ "(" ++ separatedBy ", " texts ++ ")").toList =
      name.toList ++ (['('] ++ ((separatedBy ", " texts).toList ++ [')'])) := by simp
  have inside : LexesTo ((separatedBy ", " texts).toList ++ [')'])
      (tokensBetween .comma tss ++ [.closeParen]) := by
    cases each with
    | nil => exact marksTo_closeParen.lexesTo
    | cons first rest =>
      have list := Writes.separated separates_comma (.cons first rest) (by simp)
      exact list.lexes.append ⟨by decide, by decide⟩ (by simp) marksTo_closeParen.lexesTo
  constructor
  · rw [chars]
    exact h.lexes.append ⟨by decide, by decide⟩ (by simp) (marksTo_openParen.append inside)
  · obtain ⟨c, cs, lead, other⟩ := h.lead
    exact ⟨c, _, by rw [chars, lead]; rfl, other⟩

/-! ## Numerals -/

theorem lead_of_isDigit {c : Char} (h : c.isDigit = true) : c ≠ '^' := by
  rintro rfl
  exact absurd h (by decide)

theorem lead_of_startsName {c : Char} (h : startsName c = true) : c ≠ '^' := by
  rintro rfl
  exact absurd h (by decide)

/-- A sign in front. -/
theorem Writes.signed {s : String} {ts : List Token} (h : Writes s ts) :
    Writes ("-" ++ s) (.op .subtract :: ts) := by
  have chars : ("-" ++ s).toList = ['-'] ++ s.toList := by simp
  constructor
  · rw [chars]
    exact (marksTo_symbol .subtract (by decide)).append h.lexes
  · exact ⟨'-', s.toList, chars, by decide⟩

/-- A numeral before text that no number continues with. -/
theorem lexesTo_numeral {r : Rat} (h : IsDecimal r) {rest : List Char}
    (stop : ∀ c ∈ rest.head?, c.isDigit = false ∧ c ≠ '.') :
    Token.ofChars? ((Numeral.exact r).text.toList ++ rest) =
      (Token.ofChars? rest).map (numeralTokens (.exact r) ++ ·) := by
  obtain ⟨whole, frac, digits, chars⟩ := text_exact h
  rw [chars, numeralTokens, signTokens]
  split
  · rw [List.append_assoc, List.singleton_append]
    have sign := marksTo_symbol .subtract (by decide) (decimalChars whole frac ++ rest)
    rw [lexesTo_number digits stop, Option.map_map] at sign
    exact sign
  · exact lexesTo_number digits stop

theorem writes_numeral {r : Rat} (h : IsDecimal r) :
    Writes (Numeral.exact r).text (numeralTokens (.exact r)) := by
  constructor
  · intro rest breaks
    refine lexesTo_numeral h fun c member => ?_
    cases rest with
    | nil => cases member
    | cons d ds =>
      cases member
      exact ⟨isDigit_of_not_continuesName breaks.1, breaks.2⟩
  · obtain ⟨whole, frac, digits, chars⟩ := text_exact h
    obtain ⟨c, cs, rfl⟩ := List.exists_cons_of_ne_nil digits.whole_ne_nil
    rw [chars, decimalChars]
    split
    · exact ⟨'-', _, rfl, by decide⟩
    · exact ⟨c, _, rfl, lead_of_isDigit (digits.whole_digits c List.mem_cons_self)⟩

theorem writes_name {name : String} (h : IsName name) : Writes name [.name name] := by
  obtain ⟨c, cs, chars, first, others⟩ := h
  have same : String.ofList (c :: cs) = name := by rw [← chars, String.ofList_toList]
  constructor
  · rw [chars, ← same]
    exact lexesTo_name first others
  · exact ⟨c, cs, chars, lead_of_startsName first⟩

theorem IsDecimal.neg {r : Rat} (h : IsDecimal r) : IsDecimal (-r) := by
  simpa [IsDecimal] using h

theorem IsDecimal.abs {r : Rat} (h : IsDecimal r) : IsDecimal |r| := by
  rcases abs_choice r with same | opposite
  · rwa [same]
  · rw [opposite]
    exact h.neg

theorem Numeral.abs_exact (r : Rat) : (Numeral.exact r).abs = .exact |r| := by
  rw [Numeral.abs, Numeral.neg]
  by_cases negative : r < 0
  · rw [abs_of_neg negative, if_pos]
    exact decide_eq_true (Rat.num_neg.mpr negative)
  · rw [abs_of_nonneg (not_lt.mp negative), if_neg]
    simpa [Numeral.isNegative] using negative

theorem numeralTokens_of_nonneg {r : Rat} (h : 0 ≤ r) : numeralTokens (.exact r) = [.number r] := by
  rw [numeralTokens, signTokens, if_neg (not_lt.mpr h), abs_of_nonneg h]
  rfl

theorem isName_i : IsName "i" := ⟨'i', [], by decide, by decide, nofun⟩

/-- A numeral directly before a name. -/
theorem Writes.direct {r : Rat} (h : IsDecimal r) {s : String} {ts : List Token} (name : Writes s ts)
    (starts : ∃ c cs, s.toList = c :: cs ∧ startsName c = true) :
    Writes ((Numeral.exact r).text ++ s) (numeralTokens (.exact r) ++ ts) := by
  obtain ⟨c, cs, chars, first⟩ := starts
  have stop (rest : List Char) : ∀ d ∈ (s.toList ++ rest).head?, d.isDigit = false ∧ d ≠ '.' := by
    intro d member
    rw [chars] at member
    cases member
    refine ⟨isDigit_of_startsName first, ?_⟩
    rintro rfl
    exact absurd first (by decide)
  constructor
  · intro rest breaks
    rw [String.toList_append, List.append_assoc, lexesTo_numeral h (stop rest),
      name.lexes rest breaks, Option.map_map]
    simp [Function.comp_def]
  · obtain ⟨d, ds, lead, other⟩ := (writes_numeral h).lead
    exact ⟨d, ds ++ s.toList, by rw [String.toList_append, lead]; rfl, other⟩

/-- An imaginary numeral. -/
theorem writes_imaginary {r : Rat} (h : IsDecimal r) :
    Writes (ComplexNumeral.text ⟨.zero, .exact r⟩) (imaginaryTokens (.exact r)) := by
  have unit : Writes (if (Numeral.exact |r|).isOne then "i" else (Numeral.exact |r|).text ++ "i")
      (if |r| = 1 then [.name "i"] else [.number |r|, .name "i"]) := by
    by_cases one : |r| = 1
    · simpa [one, Numeral.isOne] using writes_name isName_i
    · have direct := Writes.direct h.abs (writes_name isName_i)
        ⟨'i', [], by decide, by decide⟩
      rw [numeralTokens_of_nonneg (abs_nonneg r)] at direct
      simpa [one, Numeral.isOne] using direct
  have zero : Numeral.zero.isZero = true := rfl
  rw [ComplexNumeral.text, Numeral.abs_exact, zero, imaginaryTokens, signTokens]
  by_cases negative : r < 0
  · have sign : (Numeral.exact r).isNegative = true := decide_eq_true (Rat.num_neg.mpr negative)
    rw [if_pos negative, sign]
    exact unit.signed
  · have sign : (Numeral.exact r).isNegative = false := by
      simpa [Numeral.isNegative] using negative
    rw [if_neg negative, sign]
    exact unit

/-! ## Expressions -/

namespace Expr

theorem startsName_of_text {e : Expr} (written : Written e) (named : e.startsWithName = true) :
    ∃ c cs, e.text.toList = c :: cs ∧ startsName c = true := by
  unfold startsWithName at named
  split at named
  · rename_i name
    obtain ⟨c, cs, chars, first, -⟩ := written.1
    exact ⟨c, cs, chars, first⟩
  · rename_i name rest
    obtain ⟨takes, each⟩ := (written_node _ _).mp written
    obtain ⟨a, b, same⟩ := operands_of_binary takes rfl
    cases same
    obtain ⟨c, cs, chars, first, -⟩ := (each (.ident name) List.mem_cons_self).1
    refine ⟨c, cs ++ ("^" ++ SymbolicAlgebra.bracketed (b.binding.looser .atom) b.text).toList,
      ?_, first⟩
    have text : (Expr.node .power [.ident name, b]).text =
        name ++ "^" ++ SymbolicAlgebra.bracketed (b.binding.looser .atom) b.text := rfl
    rw [text]
    simp [chars]
  · cases named

theorem length_operandBrackets (op : Operator) (xs : List Expr) :
    (operandBrackets op xs).length = xs.length := by
  unfold operandBrackets
  split
  · cases xs with
    | nil => rfl
    | cons e es => simp [addendsBrackets]
  all_goals simp

theorem writes_brackets {texts : List String} {tss : List (List Token)}
    (each : List.Forall₂ Writes texts tss) (brackets : List Bool) :
    List.Forall₂ Writes (List.zipWith SymbolicAlgebra.bracketed brackets texts)
      (List.zipWith bracketedTokens brackets tss) := by
  induction each generalizing brackets with
  | nil => cases brackets <;> exact .nil
  | cons first rest ih =>
    cases brackets with
    | nil => exact .nil
    | cons b bs => exact .cons (first.bracketed b) (ih bs)

theorem length_pos_of_takes {op : Operator} {count : Nat} (h : op.Takes count) : 0 < count := by
  unfold Operator.Takes at h
  split at h <;> omega

theorem writes_node {op : Operator} {xs : List Expr} (written : Written (.node op xs))
    (each : ∀ x ∈ xs, Writes x.text x.tokens) :
    Writes (Expr.node op xs).text (Expr.node op xs).tokens := by
  obtain ⟨takes, parts⟩ := (written_node op xs).mp written
  rw [text, tokens, textAll_eq_map, tokensAll_eq_map]
  rcases kind_of_written written with ⟨r, b, rfl, rfl, named⟩ | ⟨b, rfl, rfl, named⟩ | plain
  · have inner := each b (by simp)
    have starts := startsName_of_text (parts b (by simp)) named
    obtain ⟨s, same, decimal⟩ := parts (.number (.exact r)) List.mem_cons_self
    cases same
    simp only [List.map_cons, List.map_nil, nodeText, nodeTokens, directFactor?, Numeral.isNaN,
      named, Bool.not_false, Bool.and_self, ↓reduceIte, directText, directTokens]
    split
    · exact inner.signed
    · exact inner.direct decimal starts
  · have inner := each b (by simp)
    have same : (Numeral.ofInt (-1) == Numeral.ofInt (-1)) = true := by decide
    simp only [List.map_cons, List.map_nil, nodeText, nodeTokens, directFactor?, named,
      Bool.and_false, Bool.false_eq_true, ↓reduceIte, isOpposite, same]
    exact (inner.bracketed _).signed
  · rw [plain.text _ (by simp), plain.tokens _ (by simp)]
    refine Writes.separated (separates_operator op) (writes_brackets ?_ _) ?_
    · exact List.forall₂_map_left_iff.mpr (List.forall₂_map_right_iff.mpr
        (List.forall₂_same.mpr each))
    · intro empty
      have := congrArg List.length empty
      have positive := length_pos_of_takes takes
      rw [List.length_zipWith, List.length_map, length_operandBrackets, List.length_nil] at this
      omega

/-- The text of an expression is read as its tokens. -/
theorem writes_tokens {e : Expr} (written : Written e) : Writes e.text e.tokens := by
  induction e with
  | number x =>
    obtain ⟨r, rfl, decimal⟩ := written
    exact writes_numeral decimal
  | complex z =>
    obtain ⟨r, rfl, decimal⟩ := written
    exact writes_imaginary decimal
  | ident name => exact writes_name written.1
  | call f xs ih =>
    obtain ⟨⟨name, -⟩, parts⟩ := (written_call f xs).mp written
    have each : List.Forall₂ Writes (xs.map text) (xs.map tokens) :=
      List.forall₂_map_left_iff.mpr (List.forall₂_map_right_iff.mpr
        (List.forall₂_same.mpr fun x member => ih x member (parts x member)))
    rw [text, tokens, textAll_eq_map, tokensAll_eq_map]
    exact (writes_name name).arguments each
  | node op xs ih =>
    have parts := ((written_node op xs).mp written).2
    exact writes_node written fun x member => ih x member (parts x member)

end Expr

end SymbolicAlgebra
