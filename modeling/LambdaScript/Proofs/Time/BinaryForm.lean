import LambdaScript.Proofs.Number.Range
import LambdaScript.Proofs.Time.InstantText

/-! # Binary forms of instants

The binary form of an instant is computed in 64-bit words, in three steps that are refused where
they overflow. The result is that of exact arithmetic: an instant has a binary form exactly if its
ticks, counted as an integer, are in range, and then the form is the ticks with one bit on top. The
ticks in range are those of the years 1 to 9999; a leap second has the ticks of the second after it,
so that the ends of the range are off by one leap second.
-/

namespace LambdaScript
namespace Word

/-- Words without a common bit are joined by adding them. -/
theorem or_eq_add {w mark : Int64} (h : w &&& mark = 0) : w ||| mark = w + mark := by
  have hbits : w.toBitVec &&& mark.toBitVec = 0#64 := by
    rw [← Int64.toBitVec_and, h]
    rfl
  rw [← Int64.toBitVec_inj, Int64.toBitVec_or, Int64.toBitVec_add,
    BitVec.add_eq_or_of_and_eq_zero _ _ hbits]

/-- A word that is joined with the bits of a mark is found again by clearing them. -/
theorem or_and_not {w mark : Int64} (h : w &&& mark = 0) : (w ||| mark) &&& ~~~mark = w := by
  rw [← Int64.toBitVec_inj, Int64.toBitVec_and, Int64.toBitVec_or, Int64.toBitVec_not]
  apply BitVec.eq_of_getLsbD_eq
  intro i hi
  have hbit : (w.toBitVec.getLsbD i && mark.toBitVec.getLsbD i) = false := by
    rw [← BitVec.getLsbD_and, ← Int64.toBitVec_and, h]
    simp
  simp only [BitVec.getLsbD_and, BitVec.getLsbD_or, BitVec.getLsbD_not, hi, decide_true,
    Bool.true_and]
  revert hbit
  cases w.toBitVec.getLsbD i <;> cases mark.toBitVec.getLsbD i <;> simp

end Word

namespace Instant

/-- The ticks of an instant from the first day of the year 1, counted exactly. -/
def tickCount (t : Instant) : Int :=
  t.seconds.toInt * 10000000 + 621355968000000000 + (t.nanos / 100 : Nat)

/-- Whether the ticks of an instant are between the first one of the year 1 and the last one of the
year 9999. -/
def InTickRange (t : Instant) : Prop := 0 ≤ t.tickCount ∧ t.tickCount ≤ 3155378975999999999

instance (t : Instant) : Decidable t.InTickRange := inferInstanceAs (Decidable (_ ∧ _))

theorem toInt_nanos (t : Instant) :
    (Int64.ofNat (t.nanos / 100)).toInt = (t.nanos / 100 : Nat) := by
  have hnanos := t.nanos_lt
  exact Int64.toInt_ofNat_of_lt (by omega)

/-- Ticks that are computed in words are exact. -/
theorem toInt_of_ticks? {t : Instant} {w : Int64} (h : t.ticks? = some w) :
    w.toInt = t.tickCount := by
  simp only [ticks?, Word.mul?, Word.add?, Option.bind_eq_bind, Option.bind_eq_some_iff] at h
  obtain ⟨whole, hwhole, shifted, hshifted, hw⟩ := h
  rw [Word.toInt_of_ofInt? hw, Word.toInt_of_ofInt? hshifted, Word.toInt_of_ofInt? hwhole,
    toInt_nanos]
  rfl

/-- No step overflows on the way to ticks in range. -/
theorem exists_ticks? {t : Instant} (h : t.InTickRange) :
    ∃ w, t.ticks? = some w ∧ w.toInt = t.tickCount := by
  have hnanos := t.nanos_lt
  have hleast : Word.least = -9223372036854775808 := rfl
  have hgreatest : Word.greatest = 9223372036854775807 := rfl
  unfold InTickRange tickCount at h
  -- what is still to be added is less than the distance from the range to the ends of the words
  obtain ⟨whole, hwhole, hwholeInt⟩ : ∃ w, Word.mul? t.seconds 10000000 = some w ∧
      w.toInt = t.seconds.toInt * 10000000 :=
    Word.exists_ofInt? (n := t.seconds.toInt * 10000000) (by omega) (by omega)
  obtain ⟨shifted, hshifted, hshiftedInt⟩ : ∃ w, Word.add? whole epochTicks = some w ∧
      w.toInt = whole.toInt + 621355968000000000 :=
    Word.exists_ofInt? (n := whole.toInt + 621355968000000000) (by omega) (by omega)
  obtain ⟨w, hw, -⟩ : ∃ w, Word.add? shifted (Int64.ofNat (t.nanos / 100)) = some w ∧
      w.toInt = shifted.toInt + (Int64.ofNat (t.nanos / 100)).toInt :=
    Word.exists_ofInt? (by rw [toInt_nanos]; omega) (by rw [toInt_nanos]; omega)
  have hticks : t.ticks? = some w := by
    simp only [ticks?, hwhole, hshifted, hw, Option.bind_eq_bind, Option.bind_some]
  exact ⟨w, hticks, toInt_of_ticks? hticks⟩

/-- Ticks in range leave the bit of the mark free. -/
theorem and_utcMark {w : Int64} (hlow : 0 ≤ w.toInt) (hhigh : w.toInt ≤ 3155378975999999999) :
    w &&& utcMark = 0 := by
  have hmark : utcMark.toBitVec = BitVec.twoPow 64 62 := rfl
  have htoInt := BitVec.toInt_eq_toNat_cond w.toBitVec
  rw [Int64.toInt_toBitVec] at htoInt
  have hlt : w.toBitVec.toNat < 2 ^ 62 := by
    split at htoInt <;> omega
  have hbit : w.toBitVec.getLsbD 62 = false := by
    rw [← BitVec.testBit_toNat]
    exact Nat.testBit_lt_two_pow hlt
  rw [← Int64.toBitVec_inj, Int64.toBitVec_and, hmark, BitVec.and_twoPow, hbit]
  rfl

/-- The binary form in exact arithmetic: the ticks joined with the mark, if they are in range. -/
theorem toBinary?_eq_some_iff {t : Instant} {b : Int64} :
    t.toBinary? = some b ↔ t.InTickRange ∧ ∃ w, w.toInt = t.tickCount ∧ b = w ||| utcMark := by
  have hrange (w : Int64) : 0 ≤ w ∧ w ≤ lastTick ↔
      0 ≤ w.toInt ∧ w.toInt ≤ 3155378975999999999 := by
    rw [Int64.le_iff_toInt_le, Int64.le_iff_toInt_le]
    rfl
  simp only [toBinary?, Option.bind_eq_some_iff, Option.ite_none_right_eq_some, hrange]
  constructor
  · rintro ⟨w, hw, hin, hb⟩
    have hexact := toInt_of_ticks? hw
    rw [hexact] at hin
    exact ⟨hin, w, hexact, (Option.some.inj hb).symm⟩
  · rintro ⟨hin, w, hexact, rfl⟩
    obtain ⟨w', hticks, hexact'⟩ := exists_ticks? hin
    obtain rfl : w' = w := Int64.toInt_inj.mp (hexact'.trans hexact.symm)
    exact ⟨w', hticks, hexact ▸ hin, rfl⟩

theorem isSome_toBinary?_iff {t : Instant} : t.toBinary?.isSome = true ↔ t.InTickRange := by
  rw [Option.isSome_iff_exists]
  constructor
  · rintro ⟨b, hb⟩
    exact (toBinary?_eq_some_iff.mp hb).1
  · intro hin
    obtain ⟨w, -, hexact⟩ := exists_ticks? hin
    exact ⟨_, toBinary?_eq_some_iff.mpr ⟨hin, w, hexact, rfl⟩⟩

/-- The mark is added to the ticks, and clearing it leaves them. -/
theorem ticks_of_toBinary? {t : Instant} {b : Int64} (h : t.toBinary? = some b) :
    b.toInt = t.tickCount + pow2 62 ∧ (b &&& ~~~utcMark).toInt = t.tickCount := by
  obtain ⟨hin, w, hexact, rfl⟩ := toBinary?_eq_some_iff.mp h
  have hdisjoint : w &&& utcMark = 0 := and_utcMark (hexact ▸ hin.1) (hexact ▸ hin.2)
  have hmark : utcMark.toInt = pow2 62 := rfl
  have hpow : pow2 62 = 4611686018427387904 := rfl
  unfold InTickRange at hin
  rw [Word.or_and_not hdisjoint, Word.or_eq_add hdisjoint, Int64.toInt_add, hexact, hmark]
  refine ⟨Int.bmod_eq_of_le ?_ ?_, rfl⟩ <;> omega

theorem map_toInt_toBinary? (t : Instant) :
    t.toBinary?.map Int64.toInt =
      if t.InTickRange then some (t.tickCount + pow2 62) else none := by
  cases hb : t.toBinary? with
  | none =>
    have hout : ¬ t.InTickRange := by
      rw [← isSome_toBinary?_iff, hb]
      simp
    rw [if_neg hout, Option.map_none]
  | some b =>
    have hin : t.InTickRange := (toBinary?_eq_some_iff.mp hb).1
    rw [if_pos hin, Option.map_some, (ticks_of_toBinary? hb).1]

theorem getLsbD_of_toBinary? {t : Instant} {b : Int64} (h : t.toBinary? = some b) :
    b.toBitVec.getLsbD 62 = true := by
  obtain ⟨-, w, -, rfl⟩ := toBinary?_eq_some_iff.mp h
  have hmark : utcMark.toBitVec.getLsbD 62 = true := rfl
  rw [Int64.toBitVec_or, BitVec.getLsbD_or, hmark, Bool.or_true]

theorem nonneg_of_toBinary? {t : Instant} {b : Int64} (h : t.toBinary? = some b) : 0 ≤ b := by
  have hin : t.InTickRange := (toBinary?_eq_some_iff.mp h).1
  apply Int64.le_iff_toInt_le.mpr
  rw [(ticks_of_toBinary? h).1]
  exact Int.add_nonneg hin.1 (Int.natCast_nonneg _)

/-- Leap seconds apart, binary forms are in the order of the instants. -/
theorem toBinary?_lt_iff {t u : Instant} {b c : Int64} (ht : t.nanos < 1000000000)
    (hu : u.nanos < 1000000000) (hb : t.toBinary? = some b) (hc : u.toBinary? = some c) :
    b < c ↔ t.seconds < u.seconds ∨ t.seconds = u.seconds ∧ t.nanos / 100 < u.nanos / 100 := by
  rw [Int64.lt_iff_toInt_lt, Int64.lt_iff_toInt_lt, ← Int64.toInt_inj, (ticks_of_toBinary? hb).1,
    (ticks_of_toBinary? hc).1, tickCount, tickCount]
  omega

/-- Leap seconds apart, the seconds and the ticks within the second are found in the ticks. -/
theorem parts_of_tickCount {t : Instant} (h : t.nanos < 1000000000) :
    (t.tickCount - epochTicks.toInt) / 10000000 = t.seconds.toInt ∧
      (t.tickCount - epochTicks.toInt) % 10000000 = (t.nanos / 100 : Nat) := by
  have hepoch : epochTicks.toInt = 621355968000000000 := rfl
  rw [hepoch, tickCount]
  omega

/-- Binary forms in exact arithmetic. An instant has one exactly if its ticks are in range, and it
is the sum of the ticks and the mark, so that no overflow on the way can change it. It is not
negative, has bit 62, and its other bits are the ticks. Leap seconds apart, it grows with the
seconds and the ticks within the second, and both are found again in it. -/
theorem binaryForm_exact :
    (∀ t : Instant, t.toBinary?.map Int64.toInt =
      if 0 ≤ t.tickCount ∧ t.tickCount ≤ 3155378975999999999 then some (t.tickCount + pow2 62)
      else none) ∧
    (∀ (t : Instant) (b : Int64), t.toBinary? = some b →
      0 ≤ b ∧ b.toBitVec.getLsbD 62 = true ∧ (b &&& ~~~utcMark).toInt = t.tickCount) ∧
    (∀ (t u : Instant) (b c : Int64), t.nanos < 1000000000 → u.nanos < 1000000000 →
      t.toBinary? = some b → u.toBinary? = some c →
      (b < c ↔ t.seconds < u.seconds ∨
        t.seconds = u.seconds ∧ t.nanos / 100 < u.nanos / 100)) ∧
    ∀ (t : Instant) (b : Int64), t.nanos < 1000000000 → t.toBinary? = some b →
      ((b &&& ~~~utcMark).toInt - epochTicks.toInt) / 10000000 = t.seconds.toInt ∧
      ((b &&& ~~~utcMark).toInt - epochTicks.toInt) % 10000000 = (t.nanos / 100 : Nat) := by
  refine ⟨map_toInt_toBinary?, fun t b hb => ?_, fun t u b c ht hu hb hc => ?_, fun t b ht hb => ?_⟩
  · exact ⟨nonneg_of_toBinary? hb, getLsbD_of_toBinary? hb, (ticks_of_toBinary? hb).2⟩
  · exact toBinary?_lt_iff ht hu hb hc
  · rw [(ticks_of_toBinary? hb).2]
    exact parts_of_tickCount ht

/-- The last tick before 1970 and the first one after it. -/
theorem binaryForm_exact_epoch :
    (⟨-1, 999999999, by decide⟩ : Instant).toBinary? = some 5233041986427387903 ∧
      (⟨0, 0, by decide⟩ : Instant).toBinary? = some 5233041986427387904 ∧
      (5233041986427387903 : Int64) < 5233041986427387904 ∧
      (5233041986427387903 : Int64).toBitVec.getLsbD 62 = true ∧
      ((5233041986427387903 &&& ~~~utcMark).toInt - epochTicks.toInt) / 10000000 = -1 ∧
      ((5233041986427387903 &&& ~~~utcMark).toInt - epochTicks.toInt) % 10000000 = 9999999 := by
  have hbefore : (⟨-1, 999999999, by decide⟩ : Instant).toBinary? = some 5233041986427387903 := rfl
  have hafter : (⟨0, 0, by decide⟩ : Instant).toBinary? = some 5233041986427387904 := rfl
  obtain ⟨-, hbits, horder, hparts⟩ := binaryForm_exact
  have hlt := (horder _ _ _ _ (by decide) (by decide) hbefore hafter).mpr (.inl (by decide))
  have hrecovered := hparts _ _ (by decide) hbefore
  exact ⟨hbefore, hafter, hlt, (hbits _ _ hbefore).2.1, hrecovered.1, hrecovered.2⟩

/-- An instant is in a year or after it if it is not before the first second of the year. -/
theorem le_year_iff {t : Instant} {year : Int} :
    year ≤ t.date.year ↔ (Date.startOfYear year - epochDay) * 86400 ≤ t.seconds.toInt := by
  change year ≤ Date.yearOfDay t.day ↔ _
  rw [Date.le_yearOfDay_iff, day]
  omega

/-- Whether an instant is in the leap second that ends a year, 23:59:60 on the 31st of December. -/
def EndsYear (t : Instant) (year : Int) : Prop :=
  t.date = ⟨year, 12, 31⟩ ∧ t.secondOfDay = 86399 ∧ 1000000000 ≤ t.nanos

theorem endsYear_iff {t : Instant} {year lastDay : Int}
    (h : Date.ofDays lastDay = ⟨year, 12, 31⟩) :
    t.EndsYear year ↔
      t.seconds.toInt = (lastDay - epochDay) * 86400 + 86399 ∧ 1000000000 ≤ t.nanos := by
  have hdate : t.date = ⟨year, 12, 31⟩ ↔ t.day = lastDay := by
    rw [← h]
    constructor
    · intro hdate
      rw [← (Date.ofDays_spec t.day).2, ← (Date.ofDays_spec lastDay).2]
      exact congrArg Date.toDays hdate
    · exact congrArg Date.ofDays
  rw [EndsYear, hdate, day, secondOfDay]
  omega

/-- Which instants have a binary form: those of the years 1 to 9999, but for the leap second that
ends the year 9999. The ticks of a leap second are those of the second after it, so that the one
that ends the year 0 has a binary form as well. -/
theorem hasBinaryForm_iff (t : Instant) :
    t.toBinary?.isSome = true ↔
      (1 ≤ t.date.year ∧ t.date.year ≤ 9999 ∧ ¬ t.EndsYear 9999) ∨ t.EndsYear 0 := by
  have hnanos := t.nanos_lt
  have hfirst : Date.startOfYear 1 = 0 := rfl
  have hlast : Date.startOfYear 10000 = 3652059 := rfl
  have hepoch : epochDay = 719162 := rfl
  have hzero : Date.ofDays (-1) = ⟨0, 12, 31⟩ := rfl
  have hend : Date.ofDays 3652058 = ⟨9999, 12, 31⟩ := rfl
  have hyear : t.date.year ≤ 9999 ↔ ¬ 10000 ≤ t.date.year := by omega
  rw [isSome_toBinary?_iff, hyear, le_year_iff, le_year_iff, endsYear_iff hend, endsYear_iff hzero,
    InTickRange, tickCount]
  omega

/-- Leap seconds leave their year: the one before the year 1 has a binary form, and the one that
ends the year 9999 has none. -/
theorem leapSecond_leaves_year :
    (∃ t, read? "0000-12-31T23:59:60Z".toList = some t ∧ t.date.year = 0 ∧
      t.toBinary? = some 4611686018427387904) ∧
    ∃ t, read? "9999-12-31T23:59:60Z".toList = some t ∧ t.date.year = 9999 ∧
      t.toBinary? = none := by
  constructor
  · exact ⟨⟨-62135596801, 1000000000, by decide⟩, by decide +kernel, by decide, rfl⟩
  · exact ⟨⟨253402300799, 1000000000, by decide⟩, by decide +kernel, by decide, by decide⟩

end Instant
end LambdaScript
