import LambdaScript.Number.Binary64
import LambdaScript.Number.Word

/-! # Numbers in range

A word is found again from its value, and the double-precision number nearest to an integer of at
most 64 bits is finite: its significand has at most 53 bits, so its exponent stays far below the one
that marks infinity.
-/

namespace LambdaScript
namespace Word

theorem ofInt?_toInt (n : Int64) : ofInt? n.toInt = some n := by
  have hle := n.le_toInt
  have hlt := n.toInt_lt
  rw [ofInt?, if_pos, Int64.ofInt_toInt]
  simp only [least, greatest]
  omega

theorem toInt_of_ofInt? {n : Int} {w : Int64} (h : ofInt? n = some w) : w.toInt = n := by
  unfold ofInt? at h
  split at h
  · next hrange =>
    cases h
    simp only [least, greatest] at hrange
    exact Int64.toInt_ofInt_of_le (by omega) (by omega)
  · cases h

theorem ofInt?_eq_some_iff {n : Int} {w : Int64} : ofInt? n = some w ↔ w.toInt = n := by
  constructor
  · exact toInt_of_ofInt?
  · rintro rfl
    exact ofInt?_toInt w

theorem exists_ofInt? {n : Int} (h : least ≤ n) (h' : n ≤ greatest) :
    ∃ w, ofInt? n = some w ∧ w.toInt = n := by
  have hw : ofInt? n = some (Int64.ofInt n) := if_pos ⟨h, h'⟩
  exact ⟨_, hw, toInt_of_ofInt? hw⟩

end Word

theorem roundHalfEven_le {num den bound : Nat} (hden : 0 < den) (h : num < bound * den) :
    roundHalfEven num den ≤ bound := by
  have hdiv : num / den < bound := (Nat.div_lt_iff_lt_mul hden).mpr h
  simp only [roundHalfEven]
  split
  · omega
  · split
    · omega
    · omega

namespace Binary64

theorem floorLog2_one {num : Nat} (h : num ≠ 0) : floorLog2 num 1 = num.log2 := by
  have hone : Nat.log2 1 = 0 := by decide
  have hle := Nat.log2_self_le h
  simp [floorLog2, pow2, hone, hle]

/-- Magnitude bits below those of infinity are the bits of a finite number. -/
theorem isFinite_ofFields {negative : Bool} {magnitude : Nat} (h : magnitude < infinityBits) :
    (ofFields negative magnitude).isFinite = true := by
  have hinfinity : infinityBits = 2047 * 2 ^ 52 := rfl
  cases negative <;>
    simp only [isFinite, exponentField, ofFields, pow2, Nat.pow_eq, UInt64.toNat_ofNat', if_true,
      if_false, Bool.false_eq_true, decide_eq_true_eq] <;>
    omega

/-- The significand of the number nearest to a positive integer. -/
theorem significand_le (num : Nat) :
    roundHalfEven (num * pow2 (52 - num.log2)) (1 * pow2 (num.log2 - 52)) ≤ pow2 53 := by
  refine roundHalfEven_le (Nat.mul_pos (by decide) (Nat.pow_pos (by decide))) ?_
  calc num * 2 ^ (52 - num.log2)
      < 2 ^ (num.log2 + 1) * 2 ^ (52 - num.log2) :=
        Nat.mul_lt_mul_of_pos_right Nat.lt_log2_self (Nat.pow_pos (by decide))
    _ = 2 ^ 53 * (1 * 2 ^ (num.log2 - 52)) := by
      rw [Nat.one_mul, ← Nat.pow_add, ← Nat.pow_add]
      congr 1
      omega

/-- The number nearest to a positive integer: its exponent is above all subnormal ones. -/
theorem nearest_integer (negative : Bool) {n : Nat} (hn : n ≠ 0) :
    nearest negative n 1 =
      ofFields negative (min ((n.log2 + 1022) * pow2 52 +
        roundHalfEven (n * pow2 (52 - n.log2)) (1 * pow2 (n.log2 - 52))) infinityBits) := by
  have hexponent : max (floorLog2 n 1 - 52) (-1074) = (n.log2 : Int) - 52 := by
    rw [floorLog2_one hn]
    omega
  have hscale : (-((n.log2 : Int) - 52)).toNat = 52 - n.log2 ∧
      ((n.log2 : Int) - 52).toNat = n.log2 - 52 ∧
      ((n.log2 : Int) - 52 + 1074).toNat = n.log2 + 1022 := by omega
  simp only [nearest, if_neg hn, hexponent, hscale]

/-- The number nearest to an integer of at most 64 bits is finite. -/
theorem isFinite_ofInt {n : Int} (h : n.natAbs ≤ pow2 64) : (ofInt n).isFinite = true := by
  rw [ofInt, nearestQuotient]
  by_cases hn : n.natAbs = 0
  · rw [nearest, if_pos hn]
    exact isFinite_ofFields (by decide)
  · have hlog : n.natAbs.log2 < 65 := (Nat.log2_lt hn).mpr (Nat.lt_of_le_of_lt h (by decide))
    have hsignificand := significand_le n.natAbs
    have hinfinity : infinityBits = 2047 * pow2 52 := rfl
    have hdouble : pow2 53 = 2 * pow2 52 := rfl
    have hpositive : 0 < pow2 52 := by decide
    rw [nearest_integer _ hn]
    refine isFinite_ofFields (Nat.lt_of_le_of_lt (Nat.min_le_left _ _) ?_)
    rw [hinfinity]
    calc _ ≤ (n.natAbs.log2 + 1022) * pow2 52 + 2 * pow2 52 := by omega
      _ = (n.natAbs.log2 + 1024) * pow2 52 := by rw [← Nat.add_mul]
      _ < 2047 * pow2 52 := Nat.mul_lt_mul_of_pos_right (by omega) hpositive

end Binary64
end LambdaScript
