import Mathlib.Algebra.Order.Ring.Rat
import Mathlib.Data.Nat.Cast.Field
import Mathlib.Data.Nat.Prime.Basic
import Mathlib.Tactic.FieldSimp
import Mathlib.Tactic.Ring
import SymbolicAlgebra.Numeral.Text
import SymbolicAlgebra.Text.Token

/-! The decimal text of exact numerals: digits, perhaps with a point between them, that denote the
magnitude of the numeral. -/
namespace SymbolicAlgebra

/-! ## Digits -/

theorem digitsValue_append (xs ys : List Char) :
    digitsValue (xs ++ ys) = digitsValue xs * 10 ^ ys.length + digitsValue ys := by
  have fold (acc : Nat) : ys.foldl (fun n c => 10 * n + (c.toNat - 48)) acc =
      acc * 10 ^ ys.length + digitsValue ys := by
    induction ys generalizing acc with
    | nil => simp [digitsValue]
    | cons y ys ih =>
      have whole : digitsValue (y :: ys) = (y.toNat - 48) * 10 ^ ys.length + digitsValue ys := by
        rw [digitsValue, List.foldl_cons, mul_zero, zero_add, ih]
      rw [List.foldl_cons, ih, whole, List.length_cons, pow_succ]
      ring
  rw [digitsValue, List.foldl_append, fold]
  rfl

theorem digitsValue_digitChar {d : Nat} (h : d < 10) : digitsValue [d.digitChar] = d := by
  have all : ∀ d < 10, digitsValue [d.digitChar] = d := by decide
  exact all d h

/-- The digits of a number denote it. -/
theorem digitsValue_toDigits (n : Nat) : digitsValue (Nat.toDigits 10 n) = n := by
  induction n using Nat.strongRecOn with
  | ind n ih =>
    rcases Nat.lt_or_ge n 10 with small | large
    · rw [Nat.toDigits_of_lt_base small, digitsValue_digitChar small]
    · rw [Nat.toDigits_of_base_le (by decide) large, digitsValue_append,
        ih _ (Nat.div_lt_self (by omega) (by decide)),
        digitsValue_digitChar (Nat.mod_lt n (by decide))]
      simp only [List.length_singleton, pow_one]
      omega

theorem toDigits_ne_nil (n : Nat) : Nat.toDigits 10 n ≠ [] := by
  rcases Nat.lt_or_ge n 10 with small | large
  · simp [Nat.toDigits_of_lt_base small]
  · simp [Nat.toDigits_of_base_le (by decide) large]

theorem isDigit_of_mem_toDigits {n : Nat} {c : Char} (h : c ∈ Nat.toDigits 10 n) :
    c.isDigit = true := Nat.isDigit_of_mem_toDigits (by decide) (by decide) h

theorem digitsValue_zeros (count : Nat) : digitsValue (List.replicate count '0') = 0 := by
  induction count with
  | zero => rfl
  | succ count ih => rw [List.replicate_succ', digitsValue_append, ih]; rfl

/-! ## Places -/

/-- A rational whose decimal expansion ends. -/
def IsDecimal (r : Rat) : Prop := ∃ k, r.den ∣ 10 ^ k

theorem multiplicity_eq {p m : Nat} (large : 1 < p) (free : ¬p ∣ m) {a fuel : Nat}
    (enough : a ≤ fuel) : multiplicity p fuel (p ^ a * m) = a := by
  induction fuel generalizing a with
  | zero =>
    rw [Nat.le_zero.mp enough]
    rfl
  | succ fuel ih =>
    rw [multiplicity]
    cases a with
    | zero =>
      rw [pow_zero, one_mul, if_neg]
      exact fun divides => free (Nat.dvd_of_mod_eq_zero divides)
    | succ a =>
      have factor : p ^ (a + 1) * m = p * (p ^ a * m) := by ring
      rw [factor, if_pos (Nat.mul_mod_right p _), Nat.mul_div_cancel_left _ (by omega),
        ih (by omega)]
      omega

/-- The number of places is found, and is the least that is enough. -/
theorem decimalPlaces?_spec {d k : Nat} (h : d ∣ 10 ^ k) :
    ∃ places ≤ k, decimalPlaces? d = some places ∧ d ∣ 10 ^ places := by
  have split : (10 : Nat) ^ k = 2 ^ k * 5 ^ k := by rw [← Nat.mul_pow]
  obtain ⟨x, y, hx, hy, rfl⟩ := (Nat.dvd_mul).mp (split ▸ h)
  obtain ⟨a, ha, rfl⟩ := (Nat.dvd_prime_pow Nat.prime_two).mp hx
  obtain ⟨b, hb, rfl⟩ := (Nat.dvd_prime_pow Nat.prime_five).mp hy
  have left : 0 < 2 ^ a := Nat.pow_pos (by decide)
  have right : 0 < 5 ^ b := Nat.pow_pos (by decide)
  have twos : multiplicity 2 (2 ^ a * 5 ^ b) (2 ^ a * 5 ^ b) = a := by
    refine multiplicity_eq (by decide) (fun divides => ?_) ?_
    · have := Nat.prime_two.dvd_of_dvd_pow divides
      omega
    · exact (Nat.lt_two_pow_self).le.trans (Nat.le_mul_of_pos_right _ right)
  have fives : multiplicity 5 (2 ^ a * 5 ^ b) (2 ^ a * 5 ^ b) = b := by
    rw [mul_comm (2 ^ a)]
    refine multiplicity_eq (by decide) (fun divides => ?_) ?_
    · have := Nat.prime_five.dvd_of_dvd_pow divides
      omega
    · exact (Nat.lt_pow_self (by decide)).le.trans (Nat.le_mul_of_pos_right _ left)
  refine ⟨max a b, max_le ha hb, ?_, ?_⟩
  · simp [decimalPlaces?, twos, fives]
  · rw [show 10 = 2 * 5 from rfl, Nat.mul_pow]
    exact Nat.mul_dvd_mul (Nat.pow_dvd_pow 2 (le_max_left a b))
      (Nat.pow_dvd_pow 5 (le_max_right a b))

theorem dvd_of_decimalPlaces? {d places : Nat} (found : decimalPlaces? d = some places) :
    d ∣ 10 ^ places := by
  simp only [decimalPlaces?, Nat.pow_eq, Option.ite_none_right_eq_some, Option.some.injEq] at found
  obtain ⟨factored, rfl⟩ := found
  rw [show 10 = 2 * 5 from rfl, Nat.mul_pow]
  exact factored.dvd.trans (Nat.mul_dvd_mul (Nat.pow_dvd_pow 2 (le_max_left _ _))
    (Nat.pow_dvd_pow 5 (le_max_right _ _)))

/-! ## Numerals -/

/-- Digits before and after a point; the point goes where nothing is after it. -/
def decimalChars (whole frac : List Char) : List Char :=
  whole ++ if frac.isEmpty then [] else '.' :: frac

/-- Digits that denote a rational. -/
structure IsDecimalText (whole frac : List Char) (r : Rat) : Prop where
  whole_ne_nil : whole ≠ []
  whole_digits : ∀ c ∈ whole, c.isDigit = true
  frac_digits : ∀ c ∈ frac, c.isDigit = true
  value : decimalValue whole frac = r

theorem den_decimalValue_dvd (whole frac : List Char) :
    (decimalValue whole frac).den ∣ 10 ^ frac.length := by
  have divides := Rat.den_dvd (digitsValue (whole ++ frac)) (Nat.pow 10 frac.length)
  rw [← Rat.mkRat_eq_divInt] at divides
  exact Int.natCast_dvd_natCast.mp divides

/-- A zero after the last digit denotes nothing. -/
theorem decimalValue_concat_zero (whole frac : List Char) :
    decimalValue whole (frac ++ ['0']) = decimalValue whole frac := by
  have digits : digitsValue (whole ++ (frac ++ ['0'])) = digitsValue (whole ++ frac) * 10 := by
    rw [← List.append_assoc, digitsValue_append]
    rfl
  rw [decimalValue, decimalValue, digits, List.length_append, List.length_singleton, Nat.pow_eq,
    pow_succ, Nat.cast_mul]
  exact Rat.mkRat_mul_right (by decide)

/-- The least number of places leaves no zero at the end: without it one place less would do. -/
theorem getLast?_ne_zero {whole frac : List Char} {r : Rat} (digits : IsDecimalText whole frac |r|)
    (places : decimalPlaces? r.den = some frac.length) : frac.getLast? ≠ some '0' := by
  intro zero
  obtain ⟨shorter, rfl⟩ := List.getLast?_eq_some_iff.mp zero
  have enough := den_decimalValue_dvd whole shorter
  rw [← decimalValue_concat_zero, digits.value, Rat.den_abs_eq_den] at enough
  obtain ⟨fewer, le, found, -⟩ := decimalPlaces?_spec enough
  rw [places, Option.some.injEq, List.length_append, List.length_singleton] at found
  omega

theorem natText_isDecimalText (n : Nat) : IsDecimalText (Nat.toDigits 10 n) [] n where
  whole_ne_nil := toDigits_ne_nil n
  whole_digits _ member := isDigit_of_mem_toDigits member
  frac_digits := nofun
  value := by simp [decimalValue, digitsValue_toDigits, Rat.mkRat_eq_div]

/-- The digits with zeros in front, enough for one before the point. -/
def paddedDigits (n places : Nat) : List Char :=
  List.replicate (places + 1 - (Nat.toDigits 10 n).length) '0' ++ Nat.toDigits 10 n

theorem lt_length_paddedDigits (n places : Nat) : places < (paddedDigits n places).length := by
  rw [paddedDigits, List.length_append, List.length_replicate]
  omega

theorem isDigit_of_mem_paddedDigits {n places : Nat} {c : Char}
    (h : c ∈ paddedDigits n places) : c.isDigit = true := by
  rcases List.mem_append.mp h with zero | digit
  · rw [List.eq_of_mem_replicate zero]
    rfl
  · exact isDigit_of_mem_toDigits digit

theorem digitsValue_paddedDigits (n places : Nat) : digitsValue (paddedDigits n places) = n := by
  rw [paddedDigits, digitsValue_append, digitsValue_zeros, digitsValue_toDigits, zero_mul, zero_add]

theorem toList_zeroDigits (count : Nat) :
    (zeroDigits count).toList = List.replicate count '0' := by
  rw [zeroDigits, String.pushn_eq_repeat_push]
  induction count with
  | zero => rfl
  | succ count ih => rw [Nat.repeat, String.toList_push, ih, List.replicate_succ']

theorem toList_toString_nat (n : Nat) : (toString n).toList = Nat.toDigits 10 n :=
  Nat.toList_repr

/-- The point goes before the last `places` digits. -/
theorem positionalText_spec (n places : Nat) (positive : 0 < places) :
    ∃ whole frac, IsDecimalText whole frac (mkRat n (10 ^ places)) ∧ frac.length = places ∧
      (positionalText n (-(places : Int))).toList = decimalChars whole frac := by
  have padded : (zeroDigits (places + 1 - (toString n).length) ++ toString n).toList =
      paddedDigits n places := by
    rw [String.toList_append, toList_zeroDigits, toList_toString_nat, paddedDigits,
      ← String.length_toList, toList_toString_nat]
  have length : (zeroDigits (places + 1 - (toString n).length) ++ toString n).length =
      (paddedDigits n places).length := by
    rw [← String.length_toList, padded]
  have long := lt_length_paddedDigits n places
  have frac_length : ((paddedDigits n places).drop
      ((paddedDigits n places).length - places)).length = places := by
    rw [List.length_drop]
    omega
  refine ⟨(paddedDigits n places).take ((paddedDigits n places).length - places),
    (paddedDigits n places).drop ((paddedDigits n places).length - places), ?_, frac_length, ?_⟩
  · constructor
    · intro nothing
      have := congrArg List.length nothing
      rw [List.length_take, List.length_nil] at this
      omega
    · intro c member
      exact isDigit_of_mem_paddedDigits (List.mem_of_mem_take member)
    · intro c member
      exact isDigit_of_mem_paddedDigits (List.mem_of_mem_drop member)
    · rw [decimalValue, List.take_append_drop, digitsValue_paddedDigits, frac_length]
      rfl
  · obtain ⟨k, rfl⟩ : ∃ k, places = k + 1 := ⟨places - 1, by omega⟩
    have exponent : (-((k + 1 : Nat) : Int)) = Int.negSucc k := rfl
    have notEmpty : ((paddedDigits n (k + 1)).drop
        ((paddedDigits n (k + 1)).length - (k + 1))).isEmpty = false := by
      rw [List.isEmpty_eq_false_iff, ← List.length_pos_iff, frac_length]
      exact positive
    rw [exponent, positionalText]
    simp only [padded, length, String.toList_append, String.toList_ofList, decimalChars, notEmpty,
      Bool.false_eq_true, ↓reduceIte, List.append_assoc]
    rfl

theorem abs_eq_div (r : Rat) : |r| = (r.num.natAbs : Rat) / r.den := by
  rw [Rat.abs_def, ← Rat.mkRat_eq_divInt, Rat.mkRat_eq_div]
  rfl

/-- Enough places make the magnitude an integer over a power of ten. -/
theorem mkRat_scaled {r : Rat} {places : Nat} (enough : r.den ∣ 10 ^ places) :
    mkRat (r.num.natAbs * 10 ^ places / r.den : Nat) (10 ^ places) = |r| := by
  have den : (r.den : Rat) ≠ 0 := Nat.cast_ne_zero.mpr r.den_nz
  have ten : (10 ^ places : Rat) ≠ 0 := pow_ne_zero _ (by norm_num)
  rw [abs_eq_div, Rat.mkRat_eq_div, Int.cast_natCast,
    Nat.cast_div (Dvd.dvd.mul_left enough _) den]
  push_cast
  field_simp

/-- The decimal expansion is a sign and the digits of the magnitude, without a zero at the end. -/
theorem finiteDecimal?_spec {r : Rat} (h : IsDecimal r) :
    ∃ t whole frac, finiteDecimal? r = some t ∧ IsDecimalText whole frac |r| ∧
      frac.getLast? ≠ some '0' ∧
      t.toList = (if r < 0 then ['-'] else []) ++ decimalChars whole frac := by
  obtain ⟨k, divides⟩ := h
  obtain ⟨places, -, found, enough⟩ := decimalPlaces?_spec divides
  have sign : (if r.num < 0 then "-" else "").toList = if r < 0 then ['-'] else [] := by
    simp only [Rat.num_neg]
    split <;> rfl
  rcases Nat.eq_zero_or_pos places with rfl | positive
  · have whole : r.den = 1 := Nat.dvd_one.mp enough
    have magnitude : |r| = (r.num.natAbs : Nat) := by
      rw [abs_eq_div, whole, Nat.cast_one, div_one]
    have text : finiteDecimal? r =
        some ((if r.num < 0 then "-" else "") ++ toString r.num.natAbs) := by
      simp only [finiteDecimal?, found]
    refine ⟨_, Nat.toDigits 10 r.num.natAbs, [], text, ?_, nofun, ?_⟩
    · rw [magnitude]
      exact natText_isDecimalText _
    · rw [String.toList_append, sign, toList_toString_nat]
      simp [decimalChars]
  · obtain ⟨whole, frac, digits, length, chars⟩ :=
      positionalText_spec (r.num.natAbs * 10 ^ places / r.den) places positive
    rw [mkRat_scaled enough] at digits
    have text : finiteDecimal? r = some ((if r.num < 0 then "-" else "") ++
        positionalText (r.num.natAbs * 10 ^ places / r.den) (-(places : Int))) := by
      unfold finiteDecimal?
      rw [found]
      obtain ⟨n, rfl⟩ : ∃ n, places = n + 1 := ⟨places - 1, by omega⟩
      rfl
    refine ⟨_, whole, frac, text, digits, getLast?_ne_zero digits (length ▸ found), ?_⟩
    rw [String.toList_append, sign, chars]

/-- The text of an exact numeral is its sign and the digits of its magnitude. -/
theorem text_exact {r : Rat} (h : IsDecimal r) :
    ∃ whole frac, IsDecimalText whole frac |r| ∧
      (Numeral.exact r).text.toList =
        (if r < 0 then ['-'] else []) ++ decimalChars whole frac := by
  obtain ⟨t, whole, frac, found, digits, -, chars⟩ := finiteDecimal?_spec h
  have text : (Numeral.exact r).text = t := by simp only [Numeral.text, found]
  exact ⟨whole, frac, digits, text ▸ chars⟩

end SymbolicAlgebra
