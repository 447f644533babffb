import Mathlib.Algebra.Order.Ring.Abs
import Mathlib.Data.Rat.Lemmas
import Mathlib.Tactic.Linarith
import SymbolicAlgebra.Proofs.CallRules

/-! Integer roots are found wherever they exist: the bisection on the bits of a root ends with the
floor of the root, so that powers have their bases as exact roots. -/
namespace SymbolicAlgebra

/-- Each turn keeps the root between `root` and `root + 2 ^ bits`, until there is one number left. -/
theorem refineRoot_spec {value n : Nat} (bits : Nat) {root : Nat} (low : root ^ n ≤ value)
    (high : value < (root + 2 ^ bits) ^ n) :
    refineRoot value n bits root ^ n ≤ value ∧ value < (refineRoot value n bits root + 1) ^ n := by
  induction bits generalizing root with
  | zero => exact ⟨low, high⟩
  | succ bits ih =>
    rw [refineRoot]
    split
    · rename_i fits
      refine ih fits ?_
      rwa [Nat.pow_eq, add_assoc, ← Nat.two_mul, ← Nat.pow_succ']
    · rename_i above
      exact ih low (Nat.lt_of_not_le above)

theorem floorRoot_spec (value : Nat) {n : Nat} (positive : n ≠ 0) :
    floorRoot value n ^ n ≤ value ∧ value < (floorRoot value n + 1) ^ n := by
  refine refineRoot_spec _ (by simp [positive]) ?_
  have bits : value.log2 + 1 ≤ (value.log2 / n + 1) * n := by
    have := Nat.lt_div_mul_add (a := value.log2) (Nat.pos_of_ne_zero positive)
    rw [Nat.add_mul, Nat.one_mul]
    exact this
  calc value < 2 ^ (value.log2 + 1) := Nat.lt_log2_self
    _ ≤ 2 ^ ((value.log2 / n + 1) * n) := Nat.pow_le_pow_right (by norm_num) bits
    _ = (0 + 2 ^ (value.log2 / n + 1)) ^ n := by rw [zero_add, pow_mul]

/-- A power has its base as its root. -/
theorem exactRoot?_pow (root : Nat) {n : Nat} (positive : n ≠ 0) :
    exactRoot? (root ^ n) n = some root := by
  obtain ⟨low, high⟩ := floorRoot_spec (root ^ n) positive
  have same : floorRoot (root ^ n) n = root := by
    have upper := (Nat.pow_le_pow_iff_left positive).mp low
    have lower := (Nat.pow_lt_pow_iff_left positive).mp high
    omega
  rw [exactRoot?, if_neg positive]
  dsimp only
  rw [same, Nat.pow_eq, if_pos rfl]

example : exactRoot? 2744 3 = some 14 := by decide

/-- Only roots of odd order are negative, and those have the sign of the power. -/
theorem exactIntRoot?_pow {root : Int} {n : Nat} (sign : Even n → 0 ≤ root) (positive : n ≠ 0) :
    exactIntRoot? (root ^ n) n = some root := by
  rcases le_or_gt 0 root with nonneg | negative
  · obtain ⟨k, rfl⟩ := Int.eq_ofNat_of_zero_le nonneg
    have power : ((k : Int)) ^ n = Int.ofNat (k ^ n) := (Int.natCast_pow k n).symm
    rw [power, exactIntRoot?, exactRoot?_pow k positive]
    rfl
  · have odd : Odd n := Nat.not_even_iff_odd.mp fun even => (sign even).not_gt negative
    obtain ⟨k, rfl⟩ := Int.eq_negSucc_of_lt_zero negative
    obtain ⟨v, magnitude⟩ := Nat.exists_eq_succ_of_ne_zero (pow_ne_zero n k.succ_ne_zero)
    have power : Int.negSucc k ^ n = Int.negSucc v := by
      rw [Int.negSucc_eq, odd.neg_pow, Int.negSucc_eq]
      exact_mod_cast congrArg (fun m : Nat => -(m : Int)) magnitude
    have root : exactRoot? (v + 1) n = some (k + 1) := by
      rw [← Nat.succ_eq_add_one v, ← magnitude, exactRoot?_pow _ positive]
    rw [power, exactIntRoot?, if_neg (by rw [Nat.odd_iff.mp odd]; decide), root]
    rfl

theorem ratRoot?_pow {root : Rat} {n : Nat} (sign : Even n → 0 ≤ root) (positive : n ≠ 0) :
    ratRoot? (root ^ n) n = some root := by
  have numSign : Even n → 0 ≤ root.num := fun even => Rat.num_nonneg.mpr (sign even)
  rw [ratRoot?, Rat.num_pow, Rat.den_pow, exactIntRoot?_pow numSign positive,
    exactRoot?_pow _ positive]
  exact congrArg some (Rat.mkRat_self root)

theorem ratRoot?_eq_some_iff {r root : Rat} {n : Nat} (positive : n ≠ 0) :
    ratRoot? r n = some root ↔ root ^ n = r ∧ (Even n → 0 ≤ root) := by
  refine ⟨fun h => ⟨pow_eq_of_ratRoot? h, fun even => nonneg_of_ratRoot? even h⟩, ?_⟩
  rintro ⟨rfl, sign⟩
  exact ratRoot?_pow sign positive

/-- Of two roots one is not negative. -/
theorem exists_root_iff {r : Rat} {n : Nat} :
    (∃ s : Rat, s ^ n = r ∧ (Even n → 0 ≤ s)) ↔ ∃ s : Rat, s ^ n = r := by
  refine ⟨fun ⟨s, power, _⟩ => ⟨s, power⟩, fun ⟨s, power⟩ => ?_⟩
  by_cases even : Even n
  · exact ⟨|s|, by rw [even.pow_abs, power], fun _ => abs_nonneg s⟩
  · exact ⟨s, power, fun h => absurd h even⟩

theorem exists_ratRoot?_iff {r : Rat} {n : Nat} (positive : n ≠ 0) :
    (∃ root, ratRoot? r n = some root) ↔ ∃ s : Rat, s ^ n = r := by
  simp only [ratRoot?_eq_some_iff positive, exists_root_iff]

namespace Numeral

theorem sqrt?_sq {root : Rat} (h : 0 ≤ root) :
    (exact (root ^ 2)).sqrt? = some (.exact root) := by
  rw [sqrt?, root?, ratRoot?_pow (fun _ => h) two_ne_zero, Option.map_some]

theorem sqrt?_ofInt_sq {n : Int} (nonneg : 0 ≤ n) : (ofInt (n ^ 2)).sqrt? = some (.ofInt n) := by
  rw [ofInt, ofInt, Int.cast_pow, sqrt?_sq (Int.cast_nonneg nonneg)]

/-- An integer that is a square has a square root that is an integer. -/
theorem sqrt?_of_isSquare {m : Int} (h : IsSquare m) :
    ∃ w : Int, w ^ 2 = m ∧ (ofInt m).sqrt? = some (.ofInt w) := by
  obtain ⟨w, rfl⟩ := h
  refine ⟨|w|, by rw [sq_abs, sq], ?_⟩
  rw [← abs_mul_abs_self w, ← sq, sqrt?_ofInt_sq (abs_nonneg w)]

/-- An integer with an exact root is a square. -/
theorem isSquare_of_sqrt? {m : Int} {y : Numeral} (h : (ofInt m).sqrt? = some y) : IsSquare m := by
  unfold sqrt? root? at h
  obtain ⟨s, root, -⟩ := Option.map_eq_some_iff.mp h
  have square : IsSquare (m : Rat) := ⟨s, by rw [← sq, pow_eq_of_ratRoot? root]⟩
  rwa [Rat.isSquare_intCast_iff] at square

end Numeral

end SymbolicAlgebra
