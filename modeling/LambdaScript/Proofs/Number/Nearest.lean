import LambdaScript.Proofs.Number.Integral
import Mathlib.Algebra.Order.Field.Power
import Mathlib.Data.Int.Log
import Mathlib.Data.Rat.Floor
import Mathlib.Tactic.FieldSimp
import Mathlib.Tactic.GCongr
import Mathlib.Tactic.Linarith
import Mathlib.Tactic.Positivity

/-! # Rounding to nearest

A quotient of natural numbers is rounded as the rational number that it is: the exponent of the
result is its binary logarithm, and the significand is the integer nearest to it on that scale, ties
to even. So a finite number is what every quotient is rounded to that is less than half a unit away
from it, unless the quotient is below a power of two, where the units get smaller.
-/

namespace LambdaScript

/-- An integer is the one nearest to a rational number, the even one of two equally near ones. -/
structure IsNearestEven (q : ℚ) (n : ℤ) : Prop where
  nearest : ∀ m : ℤ, |q - n| ≤ |q - m|
  even_of_tie : ∀ m : ℤ, m ≠ n → |q - m| = |q - n| → Even n

/-- Two different integers are at least one apart, so both cannot be closer than one half. -/
theorem one_le_abs_add_abs (q : ℚ) {m n : ℤ} (h : m ≠ n) : 1 ≤ |q - m| + |q - n| := by
  have hint : 1 ≤ |m - n| := Int.one_le_abs (sub_ne_zero.mpr h)
  have hrat : (1 : ℚ) ≤ |(m : ℚ) - n| := by exact_mod_cast hint
  calc (1 : ℚ) ≤ |(m : ℚ) - n| := hrat
    _ ≤ |(m : ℚ) - q| + |q - n| := abs_sub_le _ _ _
    _ = |q - m| + |q - n| := by rw [abs_sub_comm]

theorem isNearestEven_of_le_half {q : ℚ} {n : ℤ} (h : |q - n| ≤ 1 / 2)
    (heven : |q - n| = 1 / 2 → Even n) : IsNearestEven q n := by
  constructor
  · intro m
    by_cases hm : m = n
    · rw [hm]
    · linarith [one_le_abs_add_abs q hm]
  · intro m hm htie
    exact heven (by linarith [one_le_abs_add_abs q hm])

namespace IsNearestEven
variable {q : ℚ} {m n : ℤ}

theorem neg (h : IsNearestEven q n) : IsNearestEven (-q) (-n) := by
  have hdistance (k : ℤ) : |-q - k| = |q - (-k : ℤ)| := by
    rw [← abs_neg]
    congr 1
    push_cast
    ring
  constructor
  · intro k
    rw [hdistance, hdistance, neg_neg]
    exact h.nearest (-k)
  · intro k hk htie
    rw [hdistance, hdistance, neg_neg] at htie
    exact (h.even_of_tie (-k) (by omega) htie).neg

/-- Of two integers that are equally near, the number is in the middle. If both are even, the middle
is an integer, and nearer. -/
theorem unique (hm : IsNearestEven q m) (hn : IsNearestEven q n) : m = n := by
  by_contra hne
  have htie : |q - m| = |q - n| := le_antisymm (hm.nearest n) (hn.nearest m)
  obtain ⟨a, ha⟩ := hm.even_of_tie n (Ne.symm hne) htie.symm
  obtain ⟨b, hb⟩ := hn.even_of_tie m hne htie
  have hmiddle : q = (a + b : ℤ) := by
    rcases abs_eq_abs.mp htie with h | h
    · exact absurd (by exact_mod_cast (by linarith : (m : ℚ) = n)) hne
    · rw [ha, hb] at h
      push_cast at h ⊢
      linarith
  have hzero := hn.nearest (a + b)
  rw [← hmiddle, sub_self, abs_zero] at hzero
  linarith [one_le_abs_add_abs q hne]

end IsNearestEven

/-- A rounded quotient is at most half a unit away, and even where it is half a unit away. -/
theorem roundHalfEven_error (num : ℕ) {den : ℕ} (h : 0 < den) :
    2 * ((num : ℤ) - roundHalfEven num den * den).natAbs ≤ den ∧
      (2 * ((num : ℤ) - roundHalfEven num den * den).natAbs = den →
        Even (roundHalfEven num den : ℤ)) := by
  have hsplit : (num : ℤ) = (num / den : ℕ) * den + (num % den : ℕ) := by
    exact_mod_cast (Nat.div_add_mod' num den).symm
  have hlt := Nat.mod_lt num h
  have hlow : (num : ℤ) - (num / den : ℕ) * den = (num % den : ℕ) := by linarith
  have hhigh : (num : ℤ) - (num / den + 1 : ℕ) * den = (num % den : ℕ) - den := by
    push_cast at hlow ⊢
    linarith
  simp only [roundHalfEven]
  split
  · rw [hlow]
    omega
  · split
    · rw [hhigh]
      omega
    · rcases Nat.mod_two_eq_zero_or_one (num / den) with hq | hq
      · rw [hq, Nat.add_zero, hlow, Int.even_iff]
        omega
      · rw [hq, hhigh, Int.even_iff]
        omega

/-- The rounding of quotients is to the nearest integer, ties to even. -/
theorem isNearestEven_roundHalfEven (num : ℕ) {den : ℕ} (h : 0 < den) :
    IsNearestEven ((num : ℚ) / den) (roundHalfEven num den) := by
  have hden : (0 : ℚ) < den := by exact_mod_cast h
  obtain ⟨hle, heven⟩ := roundHalfEven_error num h
  generalize roundHalfEven num den = n at *
  have herror : |(num : ℚ) / den - (n : ℤ)| = ((num : ℤ) - n * den).natAbs / (den : ℚ) := by
    have hsub : (num : ℚ) / den - (n : ℤ) = ((num : ℤ) - n * den : ℤ) / (den : ℚ) := by
      push_cast
      field_simp
    rw [hsub, abs_div, abs_of_pos hden, ← Int.cast_abs, Nat.cast_natAbs]
  apply isNearestEven_of_le_half
  · rw [herror, div_le_div_iff₀ hden two_pos, one_mul, mul_comm]
    exact_mod_cast hle
  · rw [herror, div_eq_div_iff hden.ne' two_ne_zero, one_mul, mul_comm]
    intro htie
    exact heven (by exact_mod_cast htie)

theorem zpow_eq_div (b : ℚ) (k : ℤ) : b ^ k = b ^ k.toNat / b ^ (-k).toNat := by
  rcases Int.eq_nat_or_neg k with ⟨n, rfl | rfl⟩
  · simp
  · simp

theorem log_eq_of_le_of_lt {b : ℕ} (hb : 1 < b) {q : ℚ} {k : ℤ} (least : (b : ℚ) ^ k ≤ q)
    (greatest : q < (b : ℚ) ^ (k + 1)) : Int.log b q = k := by
  have hq : 0 < q := lt_of_lt_of_le (zpow_pos (by exact_mod_cast (by omega : 0 < b)) k) least
  have hle := (Int.zpow_le_iff_le_log hb hq).mp least
  have hlt := (Int.lt_zpow_iff_log_lt hb hq).mp greatest
  omega

namespace Binary64

/-- What a finite number is without its sign. -/
def magnitude (x : Binary64) : ℚ := x.numerator / x.denominator

theorem magnitude_eq (x : Binary64) : x.magnitude = x.significand * 2 ^ x.scale := by
  rw [magnitude, zpow_eq_div, numerator, denominator]
  simp only [pow2, Nat.pow_eq]
  push_cast
  ring

theorem zpow_le_div_iff (num : ℕ) {den : ℕ} (hden : den ≠ 0) (k : ℤ) :
    (2 : ℚ) ^ k ≤ num / den ↔ den * pow2 k.toNat ≤ num * pow2 (-k).toNat := by
  have hpos : (0 : ℚ) < den := by exact_mod_cast Nat.pos_of_ne_zero hden
  rw [zpow_eq_div, div_le_div_iff₀ (by positivity) hpos, mul_comm]
  simp only [pow2, Nat.pow_eq]
  exact_mod_cast Iff.rfl

/-- Between powers of two, a natural number is its own logarithm. -/
theorem floorLog2_eq_log {num den : ℕ} (hnum : num ≠ 0) (hden : den ≠ 0) :
    floorLog2 num den = Int.log 2 ((num : ℚ) / den) := by
  have hpos : (0 : ℚ) < den := by exact_mod_cast Nat.pos_of_ne_zero hden
  have hnumLow : (2 : ℚ) ^ (num.log2 : ℤ) ≤ num := by exact_mod_cast Nat.log2_self_le hnum
  have hdenLow : (2 : ℚ) ^ (den.log2 : ℤ) ≤ den := by exact_mod_cast Nat.log2_self_le hden
  have hnumHigh : (num : ℚ) < 2 ^ ((num.log2 : ℤ) + 1) := by
    exact_mod_cast (Nat.lt_log2_self : num < 2 ^ (num.log2 + 1))
  have hdenHigh : (den : ℚ) < 2 ^ ((den.log2 : ℤ) + 1) := by
    exact_mod_cast (Nat.lt_log2_self : den < 2 ^ (den.log2 + 1))
  have hlow : (2 : ℚ) ^ ((num.log2 : ℤ) - den.log2 - 1) ≤ num / den := by
    rw [le_div_iff₀ hpos]
    calc (2 : ℚ) ^ ((num.log2 : ℤ) - den.log2 - 1) * den
        ≤ 2 ^ ((num.log2 : ℤ) - den.log2 - 1) * 2 ^ ((den.log2 : ℤ) + 1) := by gcongr
      _ = 2 ^ (num.log2 : ℤ) := by
        rw [← zpow_add₀ two_ne_zero]
        congr 1
        ring
      _ ≤ num := hnumLow
  have hhigh : (num : ℚ) / den < 2 ^ ((num.log2 : ℤ) - den.log2 + 1) := by
    rw [div_lt_iff₀ hpos]
    calc (num : ℚ) < 2 ^ ((num.log2 : ℤ) + 1) := hnumHigh
      _ = 2 ^ ((num.log2 : ℤ) - den.log2 + 1) * 2 ^ (den.log2 : ℤ) := by
        rw [← zpow_add₀ two_ne_zero]
        congr 1
        ring
      _ ≤ 2 ^ ((num.log2 : ℤ) - den.log2 + 1) * den := by gcongr
  simp only [floorLog2]
  by_cases h : den * pow2 ((num.log2 : ℤ) - den.log2).toNat ≤
      num * pow2 (-((num.log2 : ℤ) - den.log2)).toNat
  · rw [if_pos h]
    symm
    exact log_eq_of_le_of_lt one_lt_two ((zpow_le_div_iff num hden _).mpr h) hhigh
  · rw [if_neg h]
    symm
    apply log_eq_of_le_of_lt one_lt_two hlow
    rw [sub_add_cancel, ← not_le, Nat.cast_ofNat, zpow_le_div_iff num hden]
    exact h

/-- A quotient that counts another power of two is rounded as the scaled number. -/
theorem isNearestEven_scaled (num : ℕ) {den : ℕ} (hden : den ≠ 0) (e : ℤ) :
    IsNearestEven ((num : ℚ) / den / 2 ^ e)
      (roundHalfEven (num * pow2 (-e).toNat) (den * pow2 e.toNat)) := by
  have hpower : 0 < den * pow2 e.toNat := by
    simp only [pow2, Nat.pow_eq]
    positivity
  have hscaled : ((num * pow2 (-e).toNat : ℕ) : ℚ) / (den * pow2 e.toNat : ℕ) =
      (num : ℚ) / den / 2 ^ e := by
    rw [zpow_eq_div]
    simp only [pow2, Nat.pow_eq]
    push_cast
    field_simp
  rw [← hscaled]
  exact isNearestEven_roundHalfEven _ hpower

/-- The power of two that the significand of a rounded number counts. -/
def unit (q : ℚ) : ℤ := max (Int.log 2 q - 52) (-1074)

/-- The exponent of a rounded quotient follows from its logarithm, and its significand is the
integer nearest to it on that scale. -/
theorem nearest_eq (negative : Bool) {num den m : ℕ} (hnum : num ≠ 0) (hden : den ≠ 0)
    (hm : IsNearestEven ((num : ℚ) / den / 2 ^ unit (num / den)) m) :
    nearest negative num den =
      ofFields negative (min ((unit ((num : ℚ) / den) + 1074).toNat * pow2 52 + m)
        infinityBits) := by
  rw [nearest, if_neg hnum, floorLog2_eq_log hnum hden, ← unit]
  have hunique := (isNearestEven_scaled num hden _).unique hm
  dsimp only
  rw [Int.ofNat_inj.mp hunique]

/-- Only the rational number matters that a quotient is. -/
theorem nearest_congr (negative : Bool) {num den num' den' : ℕ} (hden : den ≠ 0) (hden' : den' ≠ 0)
    (h : (num : ℚ) / den = num' / den') :
    nearest negative num den = nearest negative num' den' := by
  have hpos : (0 : ℚ) < den' := by exact_mod_cast Nat.pos_of_ne_zero hden'
  by_cases hnum : num = 0
  · have hzero : num' = 0 := by
      rw [hnum, Nat.cast_zero, zero_div, eq_comm, div_eq_zero_iff] at h
      exact_mod_cast h.resolve_right hpos.ne'
    rw [hnum, hzero, nearest, nearest, if_pos rfl, if_pos rfl]
  · have hnum' : num' ≠ 0 := by
      rintro rfl
      rw [Nat.cast_zero, zero_div, div_eq_zero_iff] at h
      rcases h with h | h
      · exact hnum (by exact_mod_cast h)
      · exact hden (by exact_mod_cast h)
    have hm := isNearestEven_scaled num hden (unit (num / den))
    rw [nearest_eq negative hnum hden hm]
    rw [h] at hm ⊢
    rw [nearest_eq negative hnum' hden' hm]

/-- A number is its sign, its exponent and its significand. -/
theorem ofFields_self (x : Binary64) :
    ofFields x.negative ((x.scale + 1074).toNat * pow2 52 + x.significand) = x := by
  have hlt := x.bits.toNat_lt
  have hmagnitude : (x.scale + 1074).toNat * pow2 52 + x.significand =
      x.exponentField * pow2 52 + x.fractionField := by
    simp only [scale, significand, pow2, Nat.pow_eq]
    split
    · next hzero =>
      rw [hzero]
      simp
    · omega
  rw [hmagnitude]
  apply congrArg mk
  apply UInt64.toNat_inj.mp
  cases hsign : x.negative <;>
    simp only [Binary64.negative, decide_eq_true_eq, decide_eq_false_iff_not] at hsign <;>
    simp only [exponentField, fractionField, pow2, Nat.pow_eq, UInt64.toNat_ofNat', if_true,
      if_false, Bool.false_eq_true] at hsign hlt ⊢ <;>
    omega

theorem fields_lt_infinityBits {x : Binary64} (hx : x.isFinite = true) :
    (x.scale + 1074).toNat * pow2 52 + x.significand < infinityBits := by
  have hlt : x.fractionField < pow2 52 := Nat.mod_lt _ (by decide)
  have hexponent : x.exponentField < pow2 11 := Nat.mod_lt _ (by decide)
  simp only [isFinite, decide_eq_true_eq] at hx
  simp only [scale, significand, infinityBits, pow2, Nat.pow_eq] at hlt hexponent ⊢
  split <;> omega

theorem scale_eq_or_le_significand (x : Binary64) :
    x.scale = -1074 ∨ 2 ^ 52 ≤ x.significand := by
  simp only [scale, significand, pow2, Nat.pow_eq]
  split
  · next hzero =>
    rw [hzero]
    exact .inl rfl
  · exact .inr (Nat.le_add_right _ _)

theorem scale_le {x : Binary64} (hx : x.isFinite = true) : x.scale ≤ 971 := by
  have hlt : x.exponentField < pow2 11 := Nat.mod_lt _ (by decide)
  simp only [isFinite, decide_eq_true_eq] at hx
  simp only [scale, pow2, Nat.pow_eq] at hlt ⊢
  omega

theorem le_scale (x : Binary64) : -1074 ≤ x.scale := by
  rw [scale]
  omega

theorem significand_eq_zero_iff {x : Binary64} : x.significand = 0 ↔ x.isZero = true := by
  simp only [significand, isZero, pow2, Nat.pow_eq, Bool.and_eq_true, decide_eq_true_eq]
  split
  · next hzero => simp [hzero]
  · next hzero => simp [hzero]

theorem ofFields_zero_of_isZero {x : Binary64} (h : x.isZero = true) :
    ofFields x.negative 0 = x := by
  have hfields := x.ofFields_self
  have hexponent : x.exponentField = 0 := by
    simp only [isZero, Bool.and_eq_true, decide_eq_true_eq] at h
    exact h.1
  have hscale : x.scale = -1074 := by simp [scale, hexponent]
  rw [significand_eq_zero_iff.mpr h, hscale] at hfields
  simpa using hfields

/-- A quotient close to a number counts the same power of two. -/
theorem unit_eq_scale {x : Binary64} {q : ℚ} (hq : 0 < q) (low : (2 : ℚ) ^ 52 ≤ x.significand →
      2 ^ (52 : ℤ) * 2 ^ x.scale ≤ q) (high : q < 2 ^ (53 : ℤ) * 2 ^ x.scale) :
    unit q = x.scale := by
  rw [← zpow_add₀ two_ne_zero] at low high
  have hlt := (Int.lt_zpow_iff_log_lt one_lt_two hq).mp (by exact_mod_cast high)
  rw [unit]
  have hleast := x.le_scale
  rcases scale_eq_or_le_significand x with hscale | hnormal
  · omega
  · have hle := (Int.zpow_le_iff_le_log one_lt_two hq).mp
      (by exact_mod_cast low (by exact_mod_cast hnormal))
    omega

/-- A quotient less than half a unit away from a number is rounded to it. Below a power of two the
units are smaller, so there the quotient must not be below the number. -/
theorem nearest_of_close {x : Binary64} (hx : x.isFinite = true) {num den : ℕ} (hnum : num ≠ 0)
    (hden : den ≠ 0) (close : |(num : ℚ) / den - x.magnitude| < 2 ^ x.scale / 2)
    (above : x.significand = 2 ^ 52 → x.magnitude ≤ num / den) :
    nearest x.negative num den = x := by
  have hq : (0 : ℚ) < num / den := by
    have hnum : (0 : ℚ) < num := by exact_mod_cast Nat.pos_of_ne_zero hnum
    have hden : (0 : ℚ) < den := by exact_mod_cast Nat.pos_of_ne_zero hden
    positivity
  have hunit : (0 : ℚ) < 2 ^ x.scale := by positivity
  rw [magnitude_eq] at close above
  have hsignificand : (x.significand : ℚ) + 1 ≤ 2 ^ (53 : ℤ) := by
    exact_mod_cast x.significand_lt
  obtain ⟨hbelow, habove⟩ := abs_lt.mp close
  have hscale : unit ((num : ℚ) / den) = x.scale := by
    apply unit_eq_scale hq
    · intro hnormal
      rcases eq_or_lt_of_le hnormal with h | h
      · have hpower : x.significand = 2 ^ 52 := by exact_mod_cast h.symm
        have hle := above hpower
        rw [hpower] at hle
        exact_mod_cast hle
      · have hnext : (2 : ℚ) ^ (52 : ℤ) + 1 ≤ x.significand := by
          have hlt : 2 ^ 52 < x.significand := by exact_mod_cast h
          exact_mod_cast hlt
        nlinarith
    · nlinarith
  have hm : IsNearestEven ((num : ℚ) / den / 2 ^ unit ((num : ℚ) / den)) x.significand := by
    have hdistance : |(num : ℚ) / den / 2 ^ x.scale - (x.significand : ℤ)| < 1 / 2 := by
      have hsub : (num : ℚ) / den / 2 ^ x.scale - (x.significand : ℤ) =
          (num / den - x.significand * 2 ^ x.scale) / 2 ^ x.scale := by
        push_cast
        field_simp
      rw [hsub, abs_div, abs_of_pos hunit, div_lt_iff₀ hunit]
      linarith
    rw [hscale]
    exact isNearestEven_of_le_half hdistance.le fun htie => absurd htie hdistance.ne
  rw [nearest_eq _ hnum hden hm, hscale, Nat.min_eq_left (fields_lt_infinityBits hx).le,
    ofFields_self]

end Binary64
end LambdaScript
