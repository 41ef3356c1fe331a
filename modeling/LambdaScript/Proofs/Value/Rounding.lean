import LambdaScript.Proofs.Number.Nearest
import LambdaScript.Proofs.Value.Recoding

/-! # Rounding numbers to words

A finite number is a rational number, read from its fields, and there is one integer that is nearest
to it with ties to even. Conversion to integers and enumerations gives that integer if it is a word,
and fails if it is not, or if the number is a NaN or an infinity. No number is cut off at the ends
of the range.
-/

namespace LambdaScript
namespace Binary64

/-- The rational number that the fields of a finite number stand for. -/
def toRat (x : Binary64) : ℚ :=
  (if x.negative then -1 else 1) *
    if x.exponentField = 0 then (x.fractionField / 2 ^ 52 : ℚ) * 2 ^ (-1022 : ℤ)
    else (1 + x.fractionField / 2 ^ 52 : ℚ) * 2 ^ ((x.exponentField : ℤ) - 1023)

theorem toRat_eq (x : Binary64) : x.toRat = x.signedNumerator / x.denominator := by
  have hscaled : (if x.exponentField = 0 then (x.fractionField / 2 ^ 52 : ℚ) * 2 ^ (-1022 : ℤ)
      else (1 + x.fractionField / 2 ^ 52 : ℚ) * 2 ^ ((x.exponentField : ℤ) - 1023)) =
      x.significand * 2 ^ x.scale := by
    have hpower (k : ℤ) : (2 : ℚ) ^ (k - 52) = 2 ^ k / 2 ^ 52 := by
      rw [zpow_sub₀ two_ne_zero]
      rfl
    rw [significand, scale]
    split
    · next hzero =>
      have hscale : ((max 0 1 : ℕ) - 1075 : ℤ) = -1022 - 52 := by decide
      rw [hzero, hscale, hpower, div_mul_eq_mul_div, mul_div_assoc]
    · next hnormal =>
      have hscale :
          ((max x.exponentField 1 : ℕ) - 1075 : ℤ) = (x.exponentField : ℤ) - 1023 - 52 := by
        omega
      rw [hscale, hpower]
      generalize (2 : ℚ) ^ ((x.exponentField : ℤ) - 1023) = p
      simp only [pow2, Nat.pow_eq]
      push_cast
      field_simp
      ring
  rw [toRat, hscaled, ← magnitude_eq, magnitude, signedNumerator]
  split
  · push_cast
    ring
  · push_cast
    ring

/-- The number is rounded to the nearest integer, ties to even. -/
theorem isNearestEven_rounded (x : Binary64) : IsNearestEven x.toRat x.rounded := by
  have h := isNearestEven_roundHalfEven x.numerator x.denominator_pos
  rw [toRat_eq, signedNumerator]
  simp only [rounded]
  split
  · have hneg := h.neg
    rw [← neg_div] at hneg
    rwa [Int.cast_neg, Int.cast_natCast]
  · rwa [Int.cast_natCast]

/-- What is not finite is a NaN or one of the two infinities. -/
theorem isFinite_eq_false_iff {x : Binary64} :
    x.isFinite = false ↔ x.isNaN = true ∨ ∃ negative, x = infinity negative := by
  constructor
  · intro hfinite
    cases hnumber : x.isNaN with
    | true => exact .inl rfl
    | false =>
      have hexponent : x.exponentField = 2047 := by simpa [isFinite] using hfinite
      have hfraction : x.fractionField = 0 := by simpa [isNaN, hfinite] using hnumber
      have hbits : x.bits.toNat = (infinity x.negative).bits.toNat := by
        have hlt := x.bits.toNat_lt
        cases hsign : x.negative <;>
          simp only [Binary64.negative, decide_eq_true_eq, decide_eq_false_iff_not] at hsign <;>
          simp only [exponentField, fractionField, infinity, ofFields, infinityBits, pow2,
            Nat.pow_eq, UInt64.toNat_ofNat', if_true, if_false, Bool.false_eq_true]
            at hexponent hfraction hsign hlt ⊢ <;>
          omega
      exact .inr ⟨x.negative, congrArg mk (UInt64.toNat_inj.mp hbits)⟩
  · rintro (hnumber | ⟨negative, rfl⟩)
    · simp only [isNaN, Bool.and_eq_true, Bool.not_eq_true'] at hnumber
      exact hnumber.1
    · cases negative <;> decide

end Binary64

namespace Value

theorem WordType.convert_eq_error_iff {t : CastType} {make : Int64 → Value} (h : WordType t make)
    {v : Value} : v.convert t = .error (.conversion v.kind t) ↔ v.toWord? = none := by
  cases hv : v.toWord? with
  | none => cases h <;> simp [convert, convert?, hv]
  | some n => cases h <;> simp [convert, convert?, hv]

/-- A number becomes a word exactly if it is finite and the word is the integer nearest to it. -/
theorem toWord?_float_eq_some_iff {x : Binary64} {n : Int64} :
    (float x).toWord? = some n ↔ x.isFinite = true ∧ IsNearestEven x.toRat n.toInt := by
  have hword : (float x).toWord? = if x.isFinite then Word.ofInt? x.rounded else none :=
    x.toWord?_eq
  rw [hword, Option.ite_none_right_eq_some, Word.ofInt?_eq_some_iff]
  constructor
  · rintro ⟨hfinite, hn⟩
    exact ⟨hfinite, hn ▸ x.isNearestEven_rounded⟩
  · rintro ⟨hfinite, hn⟩
    exact ⟨hfinite, hn.unique x.isNearestEven_rounded⟩

/-- A finite number becomes no word exactly if the integer nearest to it is out of range. -/
theorem toWord?_float_eq_none_iff {x : Binary64} :
    (float x).toWord? = none ↔ x.isFinite = false ∨
      x.isFinite = true ∧ ∃ n : ℤ, IsNearestEven x.toRat n ∧ (n < -2 ^ 63 ∨ 2 ^ 63 ≤ n) := by
  constructor
  · intro hnone
    cases hfinite : x.isFinite with
    | false => exact .inl rfl
    | true =>
      refine .inr ⟨rfl, x.rounded, x.isNearestEven_rounded, ?_⟩
      by_contra hrange
      obtain ⟨w, -, hw⟩ := Word.exists_ofInt? (n := x.rounded)
        (by simp only [Word.least]; omega) (by simp only [Word.greatest]; omega)
      have hsome := toWord?_float_eq_some_iff.mpr ⟨hfinite, hw ▸ x.isNearestEven_rounded⟩
      rw [hnone] at hsome
      cases hsome
  · intro h
    cases hword : (float x).toWord? with
    | none => rfl
    | some w =>
      obtain ⟨hfinite, hw⟩ := toWord?_float_eq_some_iff.mp hword
      rcases h with h | ⟨-, n, hn, hrange⟩
      · rw [hfinite] at h
        cases h
      · have hle := w.le_toInt
        have hlt := w.toInt_lt
        have hsame := hn.unique hw
        omega

/-- Converting numbers to integers and enumerations is exact or refused. A finite number has one
nearest integer, ties to even. The conversion succeeds exactly if the number is finite and that
integer is a word, and gives the integer itself. It fails for NaNs, for infinities, and for numbers
whose nearest integer is out of range, and for nothing else. -/
theorem convert_float_exact {t : CastType} {make : Int64 → Value} (h : WordType t make)
    (x : Binary64) :
    (∃! n : ℤ, IsNearestEven x.toRat n) ∧
    (∀ v, (float x).convert t = .ok v ↔
      x.isFinite = true ∧ ∃ n : Int64, IsNearestEven x.toRat n.toInt ∧ make n = v) ∧
    ((∃ v, (float x).convert t = .ok v) ↔
      x.isFinite = true ∧ ∃ n : ℤ, IsNearestEven x.toRat n ∧ -2 ^ 63 ≤ n ∧ n ≤ 2 ^ 63 - 1) ∧
    ((float x).convert t = .error (.conversion .float t) ↔
      x.isNaN = true ∨ (∃ negative, x = .infinity negative) ∨
        x.isFinite = true ∧
          ∃ n : ℤ, IsNearestEven x.toRat n ∧ (n < -2 ^ 63 ∨ 2 ^ 63 ≤ n)) := by
  refine ⟨⟨x.rounded, x.isNearestEven_rounded, fun n hn => hn.unique x.isNearestEven_rounded⟩, ?_,
    ?_, ?_⟩
  · intro v
    simp only [h.convert_eq_ok_iff, toWord?_float_eq_some_iff]
    constructor
    · rintro ⟨n, ⟨hfinite, hn⟩, hv⟩
      exact ⟨hfinite, n, hn, hv⟩
    · rintro ⟨hfinite, n, hn, hv⟩
      exact ⟨n, ⟨hfinite, hn⟩, hv⟩
  · constructor
    · rintro ⟨v, hv⟩
      obtain ⟨n, hn, -⟩ := h.convert_eq_ok_iff.mp hv
      obtain ⟨hfinite, hnearest⟩ := toWord?_float_eq_some_iff.mp hn
      exact ⟨hfinite, n.toInt, hnearest, n.le_toInt, Int.le_sub_one_of_lt n.toInt_lt⟩
    · rintro ⟨hfinite, n, hn, hlow, hhigh⟩
      obtain ⟨w, -, rfl⟩ := Word.exists_ofInt? hlow hhigh
      exact ⟨make w, h.convert_eq_ok_iff.mpr ⟨w, toWord?_float_eq_some_iff.mpr ⟨hfinite, hn⟩, rfl⟩⟩
  · rw [← or_assoc, ← Binary64.isFinite_eq_false_iff, ← toWord?_float_eq_none_iff]
    exact h.convert_eq_error_iff

/-- Two and a half becomes two, and `2 ^ 63` becomes no word. -/
theorem convert_float_exact_half :
    Binary64.toRat ⟨0x4004000000000000⟩ = 5 / 2 ∧
    (float ⟨0x4004000000000000⟩).convert (.enumeration ⟨"Color"⟩) =
      .ok (enumeration ⟨"Color"⟩ 2) ∧
    Binary64.toRat ⟨0x43E0000000000000⟩ = 2 ^ 63 ∧
    (float ⟨0x43E0000000000000⟩).convert .integer = .error (.conversion .float .integer) := by
  have hhalf : Binary64.toRat ⟨0x4004000000000000⟩ = 5 / 2 := by
    have hfields : Binary64.negative ⟨0x4004000000000000⟩ = false ∧
        Binary64.exponentField ⟨0x4004000000000000⟩ = 1024 ∧
        Binary64.fractionField ⟨0x4004000000000000⟩ = 2 ^ 50 := by decide +kernel
    rw [Binary64.toRat, hfields.1, hfields.2.1, hfields.2.2]
    norm_num
  have hpower : Binary64.toRat ⟨0x43E0000000000000⟩ = 2 ^ 63 := by
    have hfields : Binary64.negative ⟨0x43E0000000000000⟩ = false ∧
        Binary64.exponentField ⟨0x43E0000000000000⟩ = 1086 ∧
        Binary64.fractionField ⟨0x43E0000000000000⟩ = 0 := by decide +kernel
    rw [Binary64.toRat, hfields.1, hfields.2.1, hfields.2.2]
    norm_num
  have htwo : IsNearestEven (Binary64.toRat ⟨0x4004000000000000⟩) 2 := by
    rw [hhalf]
    apply isNearestEven_of_le_half
    · norm_num
    · intro _
      decide
  have hbeyond : IsNearestEven (Binary64.toRat ⟨0x43E0000000000000⟩) (2 ^ 63) := by
    rw [hpower]
    apply isNearestEven_of_le_half
    · norm_num
    · norm_num
  refine ⟨hhalf, ?_, hpower, ?_⟩
  · have hconvert := (convert_float_exact (.enumeration ⟨"Color"⟩) ⟨0x4004000000000000⟩).2.1
    exact (hconvert _).mpr ⟨by decide +kernel, 2, htwo, rfl⟩
  · have hrefused := (convert_float_exact .integer ⟨0x43E0000000000000⟩).2.2.2
    exact hrefused.mpr (.inr (.inr ⟨by decide +kernel, 2 ^ 63, hbeyond, .inr le_rfl⟩))

end Value
end LambdaScript
