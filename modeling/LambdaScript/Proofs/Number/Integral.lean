import LambdaScript.Number.Word
import LambdaScript.Proofs.Number.Range
import Mathlib.Tactic.Ring

/-! # Integral numbers

An integer with at most 53 significant bits is itself a double-precision number, so rounding a
number to an integral one loses nothing beyond the rounding: the result denotes the rounded integer
exactly. Comparing it with the ends of the range is then comparing integers, and its integer part is
itself. So `Binary64.toWord?` gives the rounded integer wherever that is a word, and nothing
otherwise.
-/

namespace LambdaScript

theorem roundHalfEven_mul (q : Nat) {den : Nat} (h : 0 < den) :
    roundHalfEven (q * den) den = q := by
  simp [roundHalfEven, Nat.mul_div_cancel q h, h]

namespace Binary64

def rounded (x : Binary64) : Int :=
  let n := roundHalfEven x.numerator x.denominator
  if x.negative then -(n : Int) else n

theorem denominator_pos (x : Binary64) : 0 < x.denominator := Nat.pow_pos (by decide)

/-- The fields of the number that is packed from them. -/
theorem fields_ofFields (negative : Bool) {exponent fraction : Nat} (hexponent : exponent < 2048)
    (hfraction : fraction < 2 ^ 52) :
    (ofFields negative (exponent * 2 ^ 52 + fraction)).negative = negative ∧
      (ofFields negative (exponent * 2 ^ 52 + fraction)).exponentField = exponent ∧
      (ofFields negative (exponent * 2 ^ 52 + fraction)).fractionField = fraction := by
  cases negative <;>
    simp only [Binary64.negative, exponentField, fractionField, ofFields, pow2, Nat.pow_eq,
      UInt64.toNat_ofNat', if_true, if_false, Bool.false_eq_true, decide_eq_true_eq,
      decide_eq_false_iff_not] <;>
    omega

/-- A number is exactly this integer, where infinities count as `2 ^ 1024` with their sign. -/
structure Equals (x : Binary64) (n : Int) : Prop where
  number : x.isNaN = false
  exact : x.signedNumerator = n * x.denominator

/-- An integer below `2 ^ 1024` with at most 53 significant bits. -/
structure Representable (n : Nat) : Prop where
  divides : 2 ^ (n.log2 - 52) ∣ n
  bounded : n.log2 < 1024

/-- The significand of an integer that needs no more than 53 bits. -/
theorem exists_significand {n : Nat} (hn : n ≠ 0) (hbits : 2 ^ (n.log2 - 52) ∣ n) :
    ∃ m, n * 2 ^ (52 - n.log2) = m * 2 ^ (n.log2 - 52) ∧ 2 ^ 52 ≤ m ∧ m < 2 ^ 53 := by
  obtain ⟨q, hq⟩ := hbits
  have hm : n * 2 ^ (52 - n.log2) = q * 2 ^ (52 - n.log2) * 2 ^ (n.log2 - 52) := by
    calc n * 2 ^ (52 - n.log2) = 2 ^ (n.log2 - 52) * q * 2 ^ (52 - n.log2) := by rw [← hq]
      _ = q * 2 ^ (52 - n.log2) * 2 ^ (n.log2 - 52) := by ring
  have hpower (k : Nat) : 2 ^ (n.log2 + k) * 2 ^ (52 - n.log2) =
      2 ^ (52 + k) * 2 ^ (n.log2 - 52) := by
    rw [← Nat.pow_add, ← Nat.pow_add]
    congr 1
    omega
  have hpos : 0 < 2 ^ (n.log2 - 52) := Nat.pow_pos (by decide)
  refine ⟨q * 2 ^ (52 - n.log2), hm, ?_, ?_⟩
  · refine Nat.le_of_mul_le_mul_right ?_ hpos
    rw [← hm]
    calc 2 ^ 52 * 2 ^ (n.log2 - 52) = 2 ^ n.log2 * 2 ^ (52 - n.log2) := (hpower 0).symm
      _ ≤ n * 2 ^ (52 - n.log2) := Nat.mul_le_mul_right _ (Nat.log2_self_le hn)
  · refine Nat.lt_of_mul_lt_mul_right (a := 2 ^ (n.log2 - 52)) ?_
    rw [← hm]
    calc n * 2 ^ (52 - n.log2) < 2 ^ (n.log2 + 1) * 2 ^ (52 - n.log2) :=
          Nat.mul_lt_mul_of_pos_right Nat.lt_log2_self (Nat.pow_pos (by decide))
      _ = 2 ^ 53 * 2 ^ (n.log2 - 52) := hpower 1

/-- What a number is, from its fields. -/
theorem equals_ofFields (negative : Bool) {exponent fraction n : Nat} (hexponent : exponent < 2047)
    (hfraction : fraction < 2 ^ 52)
    (h : (if exponent = 0 then fraction else 2 ^ 52 + fraction) * 2 ^ (max exponent 1 - 1075) =
      n * 2 ^ (1075 - max exponent 1)) :
    (ofFields negative (exponent * 2 ^ 52 + fraction)).Equals
      (if negative then -(n : Int) else n) := by
  obtain ⟨hsign, hexp, hfrac⟩ := fields_ofFields negative (by omega : exponent < 2048) hfraction
  have hscale : ((max exponent 1 : Nat) - 1075 : Int).toNat = max exponent 1 - 1075 ∧
      (-((max exponent 1 : Nat) - 1075 : Int)).toNat = 1075 - max exponent 1 := by omega
  constructor
  · have hne : exponent ≠ 2047 := by omega
    rw [isNaN, isFinite, hexp]
    simp [hne]
  · simp only [signedNumerator, numerator, denominator, significand, scale, hsign, hexp, hfrac,
      hscale, pow2, Nat.pow_eq, h]
    split <;> simp

/-- A representable integer is its own nearest number. -/
theorem equals_nearest (negative : Bool) {n : Nat} (h : Representable n) :
    (nearest negative n 1).Equals (if negative then -(n : Int) else n) := by
  by_cases hzero : n = 0
  · subst hzero
    refine equals_ofFields negative (by decide : 0 < 2047) (by decide : 0 < 2 ^ 52) ?_
    rw [if_pos rfl, Nat.zero_mul, Nat.zero_mul]
  obtain ⟨m, hm, hlow, hhigh⟩ := exists_significand hzero h.divides
  have hlog := h.bounded
  have hround : roundHalfEven (n * pow2 (52 - n.log2)) (1 * pow2 (n.log2 - 52)) = m := by
    rw [Nat.one_mul]
    simp only [pow2, Nat.pow_eq]
    rw [hm]
    exact roundHalfEven_mul m (Nat.pow_pos (by decide))
  -- the leading bit of the significand is carried into the exponent
  have hpacked : min ((n.log2 + 1022) * pow2 52 + m) infinityBits =
      (n.log2 + 1023) * 2 ^ 52 + (m - 2 ^ 52) := by
    simp only [infinityBits, pow2, Nat.pow_eq]
    omega
  rw [nearest_integer negative hzero, hround, hpacked]
  refine equals_ofFields negative (by omega) (by omega) ?_
  have hexponent : max (n.log2 + 1023) 1 - 1075 = n.log2 - 52 ∧
      1075 - max (n.log2 + 1023) 1 = 52 - n.log2 := by omega
  rw [hexponent.1, hexponent.2, if_neg (by omega), hm, Nat.add_sub_of_le hlow]

theorem significand_lt (x : Binary64) : x.significand < 2 ^ 53 := by
  have hfraction : x.fractionField < 2 ^ 52 := Nat.mod_lt _ (by decide)
  simp only [significand, pow2, Nat.pow_eq]
  split <;> omega

theorem representable_of_le {n : Nat} (h : n ≤ 2 ^ 53) : Representable n := by
  rcases Nat.lt_or_eq_of_le h with h | rfl
  · have hlog : n.log2 < 53 := by
      by_cases hn : n = 0
      · subst hn
        decide
      · exact (Nat.log2_lt hn).mpr h
    have hzero : n.log2 - 52 = 0 := by omega
    exact ⟨by rw [hzero]; exact Nat.one_dvd n, by omega⟩
  · constructor
    · rw [Nat.log2_two_pow]
      exact Nat.pow_dvd_pow 2 (by decide)
    · rw [Nat.log2_two_pow]
      decide

theorem representable_mul_pow {m k : Nat} (hm : m < 2 ^ 53) (hk : k ≤ 971) :
    Representable (m * 2 ^ k) := by
  by_cases hzero : m * 2 ^ k = 0
  · rw [hzero]
    exact representable_of_le (by decide)
  have hlog : (m * 2 ^ k).log2 < 53 + k := by
    refine (Nat.log2_lt hzero).mpr ?_
    rw [Nat.pow_add]
    exact Nat.mul_lt_mul_of_pos_right hm (Nat.pow_pos (by decide))
  constructor
  · exact Nat.dvd_mul_left_of_dvd (Nat.pow_dvd_pow 2 (by omega)) m
  · omega

/-- Rounding a finite number to an integer leaves a number. A number that is not integral already
has all of its bits below `2 ^ 53`. -/
theorem representable_rounded {x : Binary64} (hx : x.isFinite = true) :
    Representable (roundHalfEven x.numerator x.denominator) := by
  have hsignificand := x.significand_lt
  have hexponent : x.exponentField < 2047 := by
    have hlt : x.exponentField < 2048 := Nat.mod_lt _ (by decide)
    have hne : x.exponentField ≠ 2047 := of_decide_eq_true hx
    omega
  by_cases hscale : 0 ≤ x.scale
  · have hdenominator : x.denominator = 1 := by
      have hzero : (-x.scale).toNat = 0 := by omega
      rw [denominator, hzero]
      rfl
    have hnumerator := roundHalfEven_mul x.numerator Nat.one_pos
    rw [Nat.mul_one] at hnumerator
    rw [hdenominator, hnumerator]
    refine representable_mul_pow hsignificand ?_
    rw [scale]
    omega
  · have hnumerator : x.numerator = x.significand := by
      have hzero : x.scale.toNat = 0 := by omega
      rw [numerator, hzero]
      exact Nat.mul_one _
    refine representable_of_le (roundHalfEven_le x.denominator_pos ?_)
    rw [hnumerator]
    exact Nat.lt_of_lt_of_le hsignificand (Nat.le_mul_of_pos_right _ x.denominator_pos)

/-- A finite number is rounded to exactly the integer nearest to it. -/
theorem equals_roundToIntegral {x : Binary64} (hx : x.isFinite = true) :
    x.roundToIntegral.Equals x.rounded := by
  rw [roundToIntegral, if_pos hx]
  exact equals_nearest x.negative (representable_rounded hx)

/-- Numbers that are integers, over a common denominator. -/
theorem Equals.common {x y : Binary64} {m n : Int} (hx : x.Equals m) (hy : y.Equals n) :
    ∃ d : Int, 0 < d ∧ x.signedNumerator * y.denominator = m * d ∧
      y.signedNumerator * x.denominator = n * d := by
  have hdx := x.denominator_pos
  have hdy := y.denominator_pos
  refine ⟨x.denominator * y.denominator, Int.mul_pos (by omega) (by omega), ?_, ?_⟩
  · rw [hx.exact, Int.mul_assoc]
  · rw [hy.exact, Int.mul_assoc, Int.mul_comm (y.denominator : Int)]

theorem Equals.le_iff {x y : Binary64} {m n : Int} (hx : x.Equals m) (hy : y.Equals n) :
    x.le y = true ↔ m ≤ n := by
  obtain ⟨d, hd, hm, hn⟩ := hx.common hy
  simp only [le, hx.number, hy.number, hm, hn, Bool.not_false, Bool.true_and, decide_eq_true_eq]
  exact Int.mul_le_mul_iff_of_pos_right hd

theorem Equals.lt_iff {x y : Binary64} {m n : Int} (hx : x.Equals m) (hy : y.Equals n) :
    x.lt y = true ↔ m < n := by
  obtain ⟨d, hd, hm, hn⟩ := hx.common hy
  simp only [lt, hx.number, hy.number, hm, hn, Bool.not_false, Bool.true_and, decide_eq_true_eq]
  exact Int.mul_lt_mul_right hd

theorem Equals.toWord_eq {x : Binary64} {n : Int} (h : x.Equals n) : x.toWord = Word.clamp n := by
  have hdenominator := x.denominator_pos
  rw [toWord, h.number, h.exact, Int.mul_tdiv_cancel n (by omega)]
  rfl

/-- The least word is a number. -/
theorem equals_least : (ofInt Word.least).Equals Word.least :=
  ⟨by decide +kernel, by decide +kernel⟩

/-- The number nearest to the greatest word is one above it. -/
theorem equals_greatest : (ofInt Word.greatest).Equals (Word.greatest + 1) :=
  ⟨by decide +kernel, by decide +kernel⟩

/-- Infinities are beyond the range on either side. -/
theorem exists_equals_infinity {x : Binary64} (hx : x.isFinite = false)
    (hnumber : x.isNaN = false) :
    ∃ n, x.Equals n ∧ (n < Word.least ∨ Word.greatest < n) := by
  have hexponent : x.exponentField = 2047 := by simpa [isFinite] using hx
  have hdenominator : x.denominator = 1 := by
    rw [denominator, scale, hexponent]
    rfl
  have hnumerator : 2 ^ 52 * 2 ^ 12 ≤ x.numerator := by
    have hscale : 12 ≤ x.scale.toNat := by
      rw [scale, hexponent]
      decide
    rw [numerator, significand, if_neg (by omega)]
    exact Nat.mul_le_mul (Nat.le_add_right _ _) (Nat.pow_le_pow_right (by decide) hscale)
  refine ⟨x.signedNumerator, ⟨hnumber, by rw [hdenominator]; simp⟩, ?_⟩
  simp only [signedNumerator, Word.least, Word.greatest]
  split
  · exact .inl (by omega)
  · exact .inr (by omega)

/-- The range is checked exactly, and inside of it nothing is cut off. -/
theorem toWord?_of_equals {x : Binary64} {n : Int} (h : x.roundToIntegral.Equals n) :
    x.toWord? = Word.ofInt? n := by
  have hlow := equals_least.le_iff h
  have hhigh := h.lt_iff equals_greatest
  rw [toWord?, Word.ofInt?, h.toWord_eq]
  by_cases hrange : Word.least ≤ n ∧ n ≤ Word.greatest
  · have hclamp : Word.clamp n = Int64.ofInt n := by
      rw [Word.clamp, if_neg (by omega), if_neg (by omega)]
    rw [if_pos hrange, if_pos, hclamp]
    rw [Bool.and_eq_true, hlow, hhigh]
    omega
  · rw [if_neg hrange, if_neg]
    rw [Bool.and_eq_true, hlow, hhigh]
    omega

/-- A number becomes the integer nearest to it, if it is finite and that integer is a word. -/
theorem toWord?_eq (x : Binary64) :
    x.toWord? = if x.isFinite then Word.ofInt? x.rounded else none := by
  cases hfinite : x.isFinite with
  | true => exact toWord?_of_equals (equals_roundToIntegral hfinite)
  | false =>
    have hsame : x.roundToIntegral = x := by simp [roundToIntegral, hfinite]
    cases hnumber : x.isNaN with
    | true => simp [toWord?, hsame, le, hnumber]
    | false =>
      obtain ⟨n, hn, hout⟩ := exists_equals_infinity hfinite hnumber
      rw [toWord?_of_equals (hsame ▸ hn), Word.ofInt?, if_neg (by omega)]
      rfl

end Binary64
end LambdaScript
