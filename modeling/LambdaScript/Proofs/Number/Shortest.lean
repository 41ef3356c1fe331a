import LambdaScript.Number.Decimal
import LambdaScript.Proofs.Number.Nearest
import LambdaScript.Proofs.Text.Digits
import Mathlib.Algebra.Order.Floor.Semifield

/-! # Shortest decimals

A decimal is read as the rational number that it is, so its zeros at the end do not matter. Of the
decimals with seventeen digits, one of the two around a finite number is always read as the number:
they are less than a unit of its significand apart. So there is a shortest decimal, and it is read
back.
-/

namespace LambdaScript

theorem Text.length_digits_le_iff {n k : ℕ} (hk : 0 < k) : (digits n).length ≤ k ↔ n < 10 ^ k :=
  Nat.length_toDigits_le_iff (by decide) hk

theorem Text.decimalLength_eq {n : ℕ} (hn : n ≠ 0) : decimalLength n = Nat.log 10 n + 1 := by
  rw [decimalLength, if_neg hn]
  apply le_antisymm
  · rw [length_digits_le_iff (Nat.succ_pos _)]
    exact Nat.lt_pow_succ_log_self (by decide) n
  · by_contra h
    have hlog : (digits n).length ≤ Nat.log 10 n := by omega
    have hpos : 0 < (digits n).length := List.length_pos_iff.mpr (digits_ne_nil n)
    have hlt := (length_digits_le_iff (by omega)).mp hlog
    exact absurd (Nat.pow_log_le_self 10 hn) (by omega)

namespace Decimal

/-- What a decimal is without its sign. -/
def value (d : Decimal) : ℚ := d.units * 10 ^ d.exponent

/-- The decimal point stands after this many digits. -/
def top (d : Decimal) : ℤ := Text.decimalLength d.units + d.exponent

theorem value_eq_zero_iff {d : Decimal} : d.value = 0 ↔ d.units = 0 := by
  rw [value, mul_eq_zero]
  simp [zpow_ne_zero]

theorem value_pos {d : Decimal} (hd : d.units ≠ 0) : 0 < d.value := by
  have hunits : (0 : ℚ) < d.units := by exact_mod_cast Nat.pos_of_ne_zero hd
  rw [value]
  positivity

theorem top_eq {d : Decimal} (hd : d.units ≠ 0) : d.top = Int.log 10 d.value + 1 := by
  have hlog : Int.log 10 d.value = (Nat.log 10 d.units : ℤ) + d.exponent := by
    apply log_eq_of_le_of_lt (by decide)
    · rw [value, Nat.cast_ofNat, zpow_add₀ (by norm_num)]
      gcongr
      exact_mod_cast Nat.pow_log_le_self 10 hd
    · rw [value, Nat.cast_ofNat, add_right_comm, zpow_add₀ (by norm_num)]
      gcongr
      exact_mod_cast Nat.lt_pow_succ_log_self (by decide : 1 < 10) d.units
  rw [top, Text.decimalLength_eq hd, hlog]
  push_cast
  ring

theorem quotient_eq_value (d : Decimal) :
    ((d.units * pow10 d.exponent.toNat : ℕ) : ℚ) / (pow10 (-d.exponent).toNat : ℕ) = d.value := by
  rw [value, zpow_eq_div]
  simp only [pow10, Nat.pow_eq]
  push_cast
  ring

theorem pow10_ne_zero (k : ℕ) : pow10 k ≠ 0 := (Nat.pow_pos (by decide)).ne'

/-- Only the sign and the value of a decimal matter. -/
theorem toBinary64_congr {d d' : Decimal} (sign : d.negative = d'.negative)
    (same : d.value = d'.value) : d.toBinary64 = d'.toBinary64 := by
  by_cases hd : d.units = 0
  · have hd' : d'.units = 0 := by rw [← value_eq_zero_iff, ← same, value_eq_zero_iff, hd]
    rw [toBinary64, toBinary64, if_pos (.inl hd), if_pos (.inl hd'), sign]
  · have hd' : d'.units ≠ 0 := by rwa [ne_eq, ← value_eq_zero_iff, ← same, value_eq_zero_iff]
    have htop : d.top = d'.top := by rw [top_eq hd, top_eq hd', same]
    have hnearest := Binary64.nearest_congr d.negative (pow10_ne_zero _) (pow10_ne_zero _)
      ((quotient_eq_value d).trans (same.trans (quotient_eq_value d').symm))
    rw [top, top] at htop
    rw [sign] at hnearest
    simp only [toBinary64, htop, hd, hd', sign, hnearest]

theorem toBinary64_eq_nearest {d : Decimal} (hd : d.units ≠ 0) (low : -400 ≤ d.top)
    (high : d.top ≤ 400) :
    d.toBinary64 =
      .nearest d.negative (d.units * pow10 d.exponent.toNat) (pow10 (-d.exponent).toNat) := by
  rw [top] at low high
  rw [toBinary64, if_neg (by omega), if_neg (by omega)]

/-- A decimal close to a number is read as it. -/
theorem toBinary64_of_close {x : Binary64} (hx : x.isFinite = true) (hne : x.significand ≠ 0)
    {d : Decimal} (sign : d.negative = x.negative) (hd : d.units ≠ 0)
    (close : |d.value - x.magnitude| < 2 ^ x.scale / 2)
    (above : x.significand = 2 ^ 52 → x.magnitude ≤ d.value) : d.toBinary64 = x := by
  have hvalue := value_pos hd
  have hbounds : (2 : ℚ) ^ (-1075 : ℤ) ≤ d.value ∧ d.value < 2 ^ (1024 : ℤ) := by
    have hone : (1 : ℚ) ≤ x.significand := by exact_mod_cast Nat.one_le_iff_ne_zero.mpr hne
    have hlt : (x.significand : ℚ) + 1 ≤ 2 ^ (53 : ℤ) := by exact_mod_cast x.significand_lt
    have hleast : (2 : ℚ) ^ (-1075 : ℤ) * 2 ≤ 2 ^ x.scale := by
      rw [← zpow_add_one₀ two_ne_zero]
      exact zpow_le_zpow_right₀ one_le_two x.le_scale
    have hgreatest : (2 : ℚ) ^ (53 : ℤ) * 2 ^ x.scale ≤ 2 ^ (1024 : ℤ) := by
      rw [← zpow_add₀ two_ne_zero]
      exact zpow_le_zpow_right₀ one_le_two (by linarith [Binary64.scale_le hx])
    have hunit : (0 : ℚ) < 2 ^ x.scale := by positivity
    rw [Binary64.magnitude_eq] at close
    obtain ⟨hlow, hhigh⟩ := abs_lt.mp close
    constructor
    · have hsmall := mul_le_mul_of_nonneg_right hone hunit.le
      linarith
    · calc d.value < (x.significand + 1) * 2 ^ x.scale := by linarith
        _ ≤ 2 ^ (53 : ℤ) * 2 ^ x.scale := by gcongr
        _ ≤ 2 ^ (1024 : ℤ) := hgreatest
  have hlow : (-401 : ℤ) ≤ Int.log 10 d.value := by
    apply (Int.zpow_le_iff_le_log (by decide) hvalue).mp
    apply le_trans _ hbounds.1
    have hpower : (2 : ℚ) ^ 1075 ≤ 10 ^ 401 := by
      exact_mod_cast (by decide +kernel : 2 ^ 1075 ≤ 10 ^ 401)
    rw [zpow_neg, zpow_neg]
    exact inv_anti₀ (by positivity) (by exact_mod_cast hpower)
  have hhigh : Int.log 10 d.value < 400 := by
    apply (Int.lt_zpow_iff_log_lt (by decide) hvalue).mp
    apply lt_of_lt_of_le hbounds.2
    exact_mod_cast (by decide +kernel : 2 ^ 1024 ≤ 10 ^ 400)
  have htop := top_eq hd
  rw [toBinary64_eq_nearest hd (by omega) (by omega), sign]
  apply Binary64.nearest_of_close hx
  · exact mul_ne_zero hd (pow10_ne_zero _)
  · exact pow10_ne_zero _
  · rwa [quotient_eq_value]
  · rwa [quotient_eq_value]

@[simp] theorem negative_dropZeros (fuel : ℕ) (d : Decimal) :
    (d.dropZeros fuel).negative = d.negative := by
  fun_induction dropZeros fuel d with
  | case1 d => rfl
  | case2 fuel d h ih => exact ih
  | case3 fuel d h => rfl

theorem value_dropZeros (fuel : ℕ) (d : Decimal) : (d.dropZeros fuel).value = d.value := by
  fun_induction dropZeros fuel d with
  | case1 d => rfl
  | case2 fuel d h ih =>
    have hunits : (d.units : ℚ) = 10 * (d.units / 10 : ℕ) := by
      exact_mod_cast (Nat.mul_div_cancel' (Nat.dvd_of_mod_eq_zero h.2)).symm
    rw [ih, value, value, hunits, zpow_add₀ (by norm_num), zpow_one]
    ring
  | case3 fuel d h => rfl

end Decimal

namespace Binary64

/-- The greatest power of ten below a quotient. -/
theorem decimalTop_eq_log {num den : ℕ} (hnum : num ≠ 0) (hden : den ≠ 0) :
    decimalTop num den = Int.log 10 ((num : ℚ) / den) + 1 := by
  have hpos : (0 : ℚ) < den := by exact_mod_cast Nat.pos_of_ne_zero hden
  rw [decimalTop]
  split
  · next hle =>
    have hone : (1 : ℚ) ≤ num / den := by
      rw [one_le_div hpos]
      exact_mod_cast hle
    have hfloor : num / den ≠ 0 := (Nat.div_pos hle (Nat.pos_of_ne_zero hden)).ne'
    rw [Int.log_of_one_le_right 10 hone, Nat.floor_div_eq_div, Text.decimalLength_eq hfloor]
    push_cast
    ring
  · next hlt =>
    -- the reciprocal lies above `c` and is at most `c + 1`
    have hpos' : (0 : ℚ) < num := by exact_mod_cast Nat.pos_of_ne_zero hnum
    have hc : (den - 1) / num ≠ 0 := (Nat.div_pos (by omega) (Nat.pos_of_ne_zero hnum)).ne'
    have hle : (den - 1) / num * num < den := by
      have hmul := Nat.div_mul_le_self (den - 1) num
      omega
    have hgt : den ≤ ((den - 1) / num + 1) * num := by
      have hmul := Nat.lt_mul_div_succ (den - 1) (Nat.pos_of_ne_zero hnum)
      rw [mul_comm] at hmul
      omega
    generalize (den - 1) / num = c at *
    have hlow : 10 ^ Nat.log 10 c ≤ c := Nat.pow_log_le_self 10 hc
    have hhigh : c + 1 ≤ 10 ^ (Nat.log 10 c + 1) := Nat.lt_pow_succ_log_self (by decide) c
    have hlog : Int.log 10 ((num : ℚ) / den) = -(Nat.log 10 c + 1 : ℕ) := by
      apply log_eq_of_le_of_lt (by decide)
      · rw [zpow_neg, zpow_natCast, inv_le_comm₀ (by positivity) (by positivity), inv_div,
          div_le_iff₀ hpos']
        exact_mod_cast hgt.trans (Nat.mul_le_mul_right num hhigh)
      · have hexponent : (-((Nat.log 10 c + 1 : ℕ) : ℤ) + 1) = -(Nat.log 10 c : ℤ) := by omega
        rw [hexponent, zpow_neg, zpow_natCast, lt_inv_comm₀ (by positivity) (by positivity),
          inv_div, lt_div_iff₀ hpos']
        exact_mod_cast (Nat.mul_le_mul_right num hlow).trans_lt hle
    rw [hlog, Text.decimalLength_eq hc]
    push_cast
    ring

variable {x : Binary64}

/-- A decimal on a grid is read back. -/
theorem toBinary64_of_onGrid? {places : ℕ} {d : Decimal} (h : x.onGrid? places = some d) :
    d.toBinary64 = x := by
  simp only [onGrid?] at h
  split at h
  · next hbelow habove =>
    split at h
    · cases h
      exact of_decide_eq_true hbelow
    · cases h
      exact of_decide_eq_true habove
  · next hbelow habove =>
    cases h
    exact of_decide_eq_true hbelow
  · next hbelow habove =>
    cases h
    exact of_decide_eq_true habove
  · cases h

/-- The last decimal on a grid that is not above a number. -/
def gridBelow (x : Binary64) (places : ℕ) : Decimal :=
  let exponent := decimalTop x.numerator x.denominator - places
  ⟨x.negative, x.numerator * pow10 (-exponent).toNat / (x.denominator * pow10 exponent.toNat),
    exponent⟩

/-- The first decimal on a grid that is above a number. -/
def gridAbove (x : Binary64) (places : ℕ) : Decimal :=
  { x.gridBelow places with units := (x.gridBelow places).units + 1 }

theorem not_readBack_of_onGrid?_eq_none {places : ℕ} (h : x.onGrid? places = none) :
    (x.gridBelow places).toBinary64 ≠ x ∧ (x.gridAbove places).toBinary64 ≠ x := by
  simp only [onGrid?] at h
  split at h
  · split at h <;> cases h
  · cases h
  · cases h
  · next hbelow habove => exact ⟨of_decide_eq_false hbelow, of_decide_eq_false habove⟩

/-- A number lies between its neighbours on a grid. -/
theorem grid_around (x : Binary64) (places : ℕ) :
    (x.gridBelow places).value ≤ x.magnitude ∧ x.magnitude < (x.gridAbove places).value := by
  simp only [gridAbove, gridBelow, Decimal.value]
  generalize decimalTop x.numerator x.denominator - places = e
  have hstep : (0 : ℚ) < 10 ^ e := by positivity
  have hquotient : ((x.numerator * pow10 (-e).toNat : ℕ) : ℚ) /
      (x.denominator * pow10 e.toNat : ℕ) = x.magnitude / 10 ^ e := by
    have hden : (x.denominator : ℚ) ≠ 0 := by exact_mod_cast x.denominator_pos.ne'
    rw [magnitude, zpow_eq_div]
    simp only [pow10, Nat.pow_eq]
    push_cast
    field_simp
  constructor
  · rw [← le_div_iff₀ hstep, ← hquotient, ← @Nat.floor_div_eq_div ℚ]
    exact Nat.floor_le (by positivity)
  · rw [← div_lt_iff₀ hstep, ← hquotient, Nat.cast_add, Nat.cast_one, ← @Nat.floor_div_eq_div ℚ]
    exact Nat.lt_floor_add_one _

theorem value_gridAbove (x : Binary64) (places : ℕ) :
    (x.gridAbove places).value =
      (x.gridBelow places).value + 10 ^ (x.gridBelow places).exponent := by
  simp only [gridAbove, Decimal.value]
  push_cast
  ring

/-- Seventeen digits leave steps of less than `10 ^ -16` of the number. -/
theorem step_le_magnitude (hne : x.significand ≠ 0) :
    (10 : ℚ) ^ (x.gridBelow 17).exponent * 10 ^ 16 ≤ x.magnitude := by
  have hnum : x.numerator ≠ 0 := mul_ne_zero hne (Nat.pow_pos (by decide)).ne'
  have hmagnitude : 0 < x.magnitude := by
    rw [x.magnitude_eq]
    have hpos : (0 : ℚ) < x.significand := by exact_mod_cast Nat.pos_of_ne_zero hne
    positivity
  have hexponent : (x.gridBelow 17).exponent + 16 = Int.log 10 x.magnitude := by
    simp only [gridBelow, decimalTop_eq_log hnum x.denominator_pos.ne', magnitude]
    push_cast
    ring
  have hpower : (10 : ℚ) ^ (16 : ℕ) = 10 ^ (16 : ℤ) := by norm_cast
  rw [hpower, ← zpow_add₀ (by norm_num), hexponent]
  exact Int.zpow_log_le_self (by decide) hmagnitude

/-- On the grid of seventeen digits, one of the two neighbours of a number is read back: they are
less than a unit apart, and less than half a unit where the units get smaller. -/
theorem onGrid?_seventeen_ne_none (hx : x.isFinite = true) (hne : x.significand ≠ 0) :
    x.onGrid? 17 ≠ none := by
  intro hnone
  obtain ⟨hbelow, habove⟩ := not_readBack_of_onGrid?_eq_none hnone
  obtain ⟨hle, hlt⟩ := x.grid_around 17
  have hunit : (0 : ℚ) < 2 ^ x.scale := by positivity
  have hstep : (0 : ℚ) < 10 ^ (x.gridBelow 17).exponent := by positivity
  have hspacing := step_le_magnitude hne
  have hnext := x.value_gridAbove 17
  have hmagnitude := x.magnitude_eq
  by_cases hpower : x.significand = 2 ^ 52
  · rw [hpower] at hmagnitude
    push_cast at hmagnitude
    apply habove
    apply Decimal.toBinary64_of_close hx hne rfl (Nat.succ_ne_zero _)
    · rw [abs_lt]
      constructor <;> linarith
    · intro _
      exact hlt.le
  · have hsignificand : (x.significand : ℚ) * 2 ^ x.scale ≤ 9007199254740992 * 2 ^ x.scale := by
      have hbound : (x.significand : ℚ) ≤ 9007199254740992 := by
        exact_mod_cast x.significand_lt.le
      gcongr
    by_cases hclose : x.magnitude - (x.gridBelow 17).value < 2 ^ x.scale / 2
    · apply hbelow
      apply Decimal.toBinary64_of_close hx hne rfl
      · intro hzero
        rw [Decimal.value_eq_zero_iff.mpr hzero] at hnext
        linarith
      · rw [abs_lt]
        constructor <;> linarith
      · exact fun h => absurd h hpower
    · apply habove
      apply Decimal.toBinary64_of_close hx hne rfl (Nat.succ_ne_zero _)
      · rw [abs_lt]
        constructor <;> linarith
      · exact fun h => absurd h hpower

theorem exists_onGrid? (hx : x.isFinite = true) (hne : x.significand ≠ 0) :
    ∃ d places, (List.range 17).findSome? (fun i => x.onGrid? (i + 1)) = some d ∧
      x.onGrid? places = some d := by
  cases h : (List.range 17).findSome? fun i => x.onGrid? (i + 1) with
  | some d =>
    obtain ⟨i, -, hi⟩ := List.exists_of_findSome?_eq_some h
    exact ⟨d, i + 1, rfl, hi⟩
  | none =>
    have hlast := List.findSome?_eq_none_iff.mp h 16 (by simp)
    exact absurd hlast (onGrid?_seventeen_ne_none hx hne)

/-- The shortest decimal of a finite number is read back. -/
theorem toBinary64_shortest (hx : x.isFinite = true) : x.shortest.toBinary64 = x := by
  rw [shortest]
  split
  · next hzero =>
    rw [Decimal.toBinary64, if_pos (.inl rfl)]
    exact ofFields_zero_of_isZero hzero
  · next hzero =>
    have hne : x.significand ≠ 0 := fun h => hzero (significand_eq_zero_iff.mp h)
    obtain ⟨d, places, hfound, hd⟩ := exists_onGrid? hx hne
    simp only [hfound, Option.getD_some]
    rw [Decimal.toBinary64_congr (Decimal.negative_dropZeros 17 d) (Decimal.value_dropZeros 17 d)]
    exact toBinary64_of_onGrid? hd

end Binary64
end LambdaScript
