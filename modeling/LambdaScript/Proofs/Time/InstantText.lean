import LambdaScript.Proofs.Text.Digits
import LambdaScript.Proofs.Time.Calendar
import LambdaScript.Time.InstantText

/-! # Texts that denote instants

The instants that some text denotes are those of the years -262143 to 262142, with a leap second
only at the end of a minute. Each of them is read back from the text that is written for it. The
parts of a text are read one by one, each from the digits that are written for it.
-/

namespace LambdaScript
namespace Text

@[simp] theorem trimStart_cons {c : Char} (h : isBlank c = false) (cs : List Char) :
    trimStart (c :: cs) = c :: cs := by
  simp [trimStart, h]

theorem trimStart_digits {ds : List Char} (hds : ∀ c ∈ ds, isDigit c = true) (hne : ds ≠ [])
    (rest : List Char) : trimStart (ds ++ rest) = ds ++ rest := by
  obtain ⟨c, cs, rfl⟩ := List.exists_cons_of_ne_nil hne
  exact trimStart_cons (isBlank_of_isDigit (hds c (by simp))) _

end Text

namespace Instant
open Text

theorem number?_digits {limit : Nat} {ds rest : List Char} (hds : ∀ c ∈ ds, isDigit c = true)
    (hne : ds ≠ []) (hlimit : ds.length ≤ limit)
    (hrest : ds.length = limit ∨ ∀ c, rest.head? = some c → isDigit c = false) :
    number? limit (ds ++ rest) = some (ofDigits ds, rest) := by
  have htake : (ds ++ rest).take limit = ds ++ rest.take (limit - ds.length) := by
    rw [List.take_append, List.take_of_length_le hlimit]
  have hstop (c : Char) (hc : (rest.take (limit - ds.length)).head? = some c) :
      isDigit c = false := by
    rcases hrest with hrest | hrest
    · simp [hrest] at hc
    · rw [List.head?_take] at hc
      split at hc
      · cases hc
      · exact hrest c hc
  simp only [number?, htake, (takeWhile_append_eq hds hstop).1]
  simp [hne]

theorem twoDigits?_padded {n : Nat} (h : n < 100) (rest : List Char) :
    twoDigits? (paddedDigits 2 n ++ rest) = some (n, rest) := by
  have hds (c : Char) (hc : c ∈ paddedDigits 2 n) := isDigit_of_mem_paddedDigits hc
  have hlength : (paddedDigits 2 n).length = 2 := length_paddedDigits (by decide) h
  rw [twoDigits?, trimStart_digits hds (paddedDigits_ne_nil 2 n),
    number?_digits hds (paddedDigits_ne_nil 2 n) (by omega) (.inl hlength), ofDigits_paddedDigits]

theorem mark?_cons {mark : Char} (h : isBlank mark = false) (rest : List Char) :
    mark? mark (mark :: rest) = some rest := by
  simp [mark?, h]

theorem year?_digits {ds rest : List Char} (hds : ∀ c ∈ ds, isDigit c = true)
    (hlength : ds.length = 4) : year? (ds ++ rest) = some ((ofDigits ds : Int), rest) := by
  have hne : ds ≠ [] := List.ne_nil_of_length_eq_add_one hlength
  have hhead (c : Char) (cs : List Char) (h : ds ++ rest = c :: cs) : isDigit c = true := by
    obtain ⟨d, ds, rfl⟩ := List.exists_cons_of_ne_nil hne
    cases h
    exact hds c (by simp)
  rw [year?, trimStart_digits hds hne]
  split
  · next cs heq => cases hhead _ _ heq
  · next cs heq => cases hhead _ _ heq
  · rw [number?_digits hds hne (by omega) (.inl hlength)]
    rfl

/-- A year is read back if no digit follows it. -/
theorem year?_yearText (year : Int) (rest : List Char)
    (hrest : ∀ c, rest.head? = some c → isDigit c = false) :
    year? (yearText year ++ rest) = some (year, rest) := by
  have hds (c : Char) (hc : c ∈ paddedDigits 4 year.natAbs) := isDigit_of_mem_paddedDigits hc
  have hnumber : number? (paddedDigits 4 year.natAbs ++ rest).length
      (paddedDigits 4 year.natAbs ++ rest) = some (year.natAbs, rest) := by
    rw [number?_digits hds (paddedDigits_ne_nil 4 year.natAbs) (by simp) (.inr hrest),
      ofDigits_paddedDigits]
  unfold yearText
  split
  · have hlength : (paddedDigits 4 year.natAbs).length = 4 :=
      length_paddedDigits (by decide) (show year.natAbs < 10000 by omega)
    rw [year?_digits hds hlength, ofDigits_paddedDigits]
    simp only [Option.some.injEq, Prod.mk.injEq, and_true]
    omega
  · by_cases hneg : year < 0
    · have hminus : isBlank '-' = false := rfl
      simp only [hneg, if_true, List.cons_append, year?, trimStart_cons hminus, hnumber,
        Option.map_some, Option.some.injEq, Prod.mk.injEq, and_true]
      omega
    · have hplus : isBlank '+' = false := rfl
      simp only [hneg, if_false, List.cons_append, year?, trimStart_cons hplus, hnumber,
        Option.map_some, Option.some.injEq, Prod.mk.injEq, and_true]
      omega

theorem date?_text {d : Date} (valid : d.isValid = true) (first : -262143 ≤ d.year)
    (last : d.year ≤ 262142) (rest : List Char) :
    date? (yearText d.year ++ '-' :: (paddedDigits 2 d.month ++
      '-' :: (paddedDigits 2 d.day ++ rest))) = some (d, rest) := by
  have hle := Date.le_of_isValid valid
  have hmark (rest : List Char) : mark? '-' ('-' :: rest) = some rest := mark?_cons rfl rest
  simp only [date?, year?_yearText d.year ('-' :: _) (by simp [isDigit]), hmark,
    twoDigits?_padded (show d.month < 100 by omega), twoDigits?_padded (show d.day < 100 by omega),
    Option.bind_eq_bind, Option.bind_some]
  simp [valid, first, last]

theorem fraction?_padded {places n : Nat} (hplaces : 0 < places) (hle : places ≤ 9)
    (h : n < pow10 places) :
    fraction? ('.' :: (paddedDigits places n ++ ['Z'])) =
      some (n * pow10 (9 - places), ['Z']) := by
  have hds (c : Char) (hc : c ∈ paddedDigits places n) := isDigit_of_mem_paddedDigits hc
  have hlength : (paddedDigits places n).length = places := length_paddedDigits hplaces h
  have htake : (paddedDigits places n ++ ['Z']).takeWhile isDigit = paddedDigits places n :=
    (takeWhile_append_eq hds (by simp [isDigit])).1
  have hkept : (paddedDigits places n).take 9 = paddedDigits places n :=
    List.take_of_length_le (by omega)
  have hdrop : (paddedDigits places n ++ ['Z']).drop places = ['Z'] := by
    rw [List.drop_append_of_le_length (by omega), List.drop_of_length_le (by omega)]
    rfl
  simp only [fraction?, htake, hkept, ofDigits_paddedDigits, hlength, hdrop]
  simp [paddedDigits_ne_nil]

theorem fraction?_fractionText {nanos : Nat} (h : nanos < 1000000000) :
    fraction? (fractionText nanos ++ ['Z']) = some (nanos, ['Z']) := by
  unfold fractionText
  split
  · next hzero =>
    subst hzero
    rfl
  · split
    · next hmillis =>
      have hlt : nanos / 1000000 < 1000 := by omega
      have hexact : nanos / 1000000 * pow10 (9 - 3) = nanos :=
        Nat.div_mul_cancel (Nat.dvd_of_mod_eq_zero hmillis)
      rw [List.cons_append, fraction?_padded (by decide) (by decide) hlt, hexact]
    · split
      · next hmicros =>
        have hlt : nanos / 1000 < 1000000 := by omega
        have hexact : nanos / 1000 * pow10 (9 - 6) = nanos :=
          Nat.div_mul_cancel (Nat.dvd_of_mod_eq_zero hmicros)
        rw [List.cons_append, fraction?_padded (by decide) (by decide) hlt, hexact]
      · have hexact : nanos * pow10 (9 - 9) = nanos := Nat.mul_one nanos
        rw [List.cons_append, fraction?_padded (by decide) (by decide) h, hexact]

/-- A time of day is read back; a leap second is only written at the end of a minute. -/
theorem time?_text {second nanos : Nat} (hsecond : second < 86400) (hnanos : nanos < 2000000000)
    (leap : 1000000000 ≤ nanos → second % 60 = 59) :
    time? (paddedDigits 2 (second / 3600) ++ ':' :: (paddedDigits 2 (second / 60 % 60) ++
        ':' :: (paddedDigits 2 (second % 60 + nanos / 1000000000) ++
          (fractionText (nanos % 1000000000) ++ ['Z'])))) =
      some ((second, nanos), ['Z']) := by
  have hmark (rest : List Char) : mark? ':' (':' :: rest) = some rest := mark?_cons rfl rest
  simp only [time?, hmark, twoDigits?_padded (show second / 3600 < 100 by omega),
    twoDigits?_padded (show second / 60 % 60 < 100 by omega),
    twoDigits?_padded (show second % 60 + nanos / 1000000000 < 100 by omega),
    fraction?_fractionText (show nanos % 1000000000 < 1000000000 by omega), Option.bind_eq_bind,
    Option.bind_some]
  rw [if_pos (by omega)]
  simp only [Option.some.injEq, Prod.mk.injEq, and_true]
  omega

theorem secondOfDay_lt (t : Instant) : t.secondOfDay < 86400 := by
  unfold secondOfDay
  omega

theorem ofSeconds?_self {t : Instant} (first : firstSecond ≤ t.seconds.toInt)
    (last : t.seconds.toInt ≤ lastSecond) : ofSeconds? t.seconds.toInt t.nanos = some t := by
  simp [ofSeconds?, t.nanos_lt, first, last]

/-- An instant in range, with a leap second only at the end of a minute, is read back from its
text. -/
theorem read?_text {t : Instant} (first : firstSecond ≤ t.seconds.toInt)
    (last : t.seconds.toInt ≤ lastSecond)
    (leap : 1000000000 ≤ t.nanos → t.seconds.toInt % 60 = 59) : read? t.text = some t := by
  obtain ⟨valid, hdays⟩ := Date.ofDays_spec t.day
  have hyear : -262143 ≤ t.date.year ∧ t.date.year ≤ 262142 := by
    refine Date.yearOfDay_bounds ?_ ?_
    · have hfirst : firstSecond = (Date.startOfYear (-262143) - epochDay) * 86400 := rfl
      unfold day
      omega
    · have hlast : lastSecond = (Date.startOfYear (262142 + 1) - epochDay) * 86400 - 1 := rfl
      unfold day
      omega
  have hleap : 1000000000 ≤ t.nanos → t.secondOfDay % 60 = 59 := by
    intro hnanos
    have := leap hnanos
    unfold secondOfDay
    omega
  have hseconds : (t.date.toDays - epochDay) * 86400 + t.secondOfDay - 0 = t.seconds.toInt := by
    change ((Date.ofDays t.day).toDays - epochDay) * 86400 + t.secondOfDay - 0 = t.seconds.toInt
    rw [hdays]
    unfold day secondOfDay
    omega
  have hoffset : offset? ['Z'] = some (0, []) := rfl
  simp only [text, List.append_assoc, List.cons_append, read?,
    date?_text (d := t.date) valid hyear.1 hyear.2, timeMark?,
    time?_text t.secondOfDay_lt t.nanos_lt hleap, hoffset, Option.bind_eq_bind, Option.bind_some,
    true_or, if_true]
  rw [hseconds, ofSeconds?_self first last]
  rfl

/-- Up to nine digits count less than a second in nanoseconds. -/
theorem nanos_lt_of_digits {ds : List Char} (hds : ∀ c ∈ ds, isDigit c = true)
    (hle : ds.length ≤ 9) : ofDigits ds * pow10 (9 - ds.length) < 1000000000 :=
  calc ofDigits ds * 10 ^ (9 - ds.length)
      < 10 ^ ds.length * 10 ^ (9 - ds.length) :=
        Nat.mul_lt_mul_of_pos_right (ofDigits_lt hds) (Nat.pow_pos (by decide))
    _ = 10 ^ 9 := by rw [← Nat.pow_add, Nat.add_sub_cancel' hle]

theorem fraction?_lt {cs rest : List Char} {nanos : Nat} (h : fraction? cs = some (nanos, rest)) :
    nanos < 1000000000 := by
  unfold fraction? at h
  split at h
  · simp only [Option.ite_none_left_eq_some, Option.some.injEq, Prod.mk.injEq] at h
    obtain ⟨-, rfl, -⟩ := h
    refine nanos_lt_of_digits (fun c hc => ?_) (List.length_take_le _ _)
    exact List.all_eq_true.mp List.all_takeWhile c (List.mem_of_mem_take hc)
  · cases h
    decide

/-- A time with a leap second is at the end of a minute. -/
theorem time?_leap {cs rest : List Char} {second nanos : Nat}
    (h : time? cs = some ((second, nanos), rest)) (leap : 1000000000 ≤ nanos) :
    second % 60 = 59 := by
  simp only [time?, Option.bind_eq_bind, Option.bind_eq_some_iff, Prod.exists] at h
  obtain ⟨hour, _, -, _, -, minute, _, -, _, -, s, _, -, fraction, _, hfraction, h⟩ := h
  have hlt := fraction?_lt hfraction
  split at h
  · simp only [Option.some.injEq, Prod.mk.injEq] at h
    omega
  · cases h

theorem offsetSize?_mod {cs rest : List Char} {size : Nat}
    (h : offsetSize? cs = some (size, rest)) : size % 60 = 0 := by
  simp only [offsetSize?, Option.bind_eq_bind, Option.bind_eq_some_iff, Prod.exists] at h
  obtain ⟨hours, _, -, minutes, _, -, h⟩ := h
  split at h
  · simp only [Option.some.injEq, Prod.mk.injEq] at h
    omega
  · cases h

/-- Offsets are whole minutes. -/
theorem offset?_mod {cs rest : List Char} {offset : Int} (h : offset? cs = some (offset, rest)) :
    offset % 60 = 0 := by
  have hsized (sign : Nat → Int) (hsign : ∀ n, n % 60 = 0 → sign n % 60 = 0) {tail : List Char}
      (h : (offsetSize? tail).map (fun p => (sign p.1, p.2)) = some (offset, rest)) :
      offset % 60 = 0 := by
    obtain ⟨⟨size, after⟩, hsize, heq⟩ := Option.map_eq_some_iff.mp h
    cases heq
    exact hsign size (offsetSize?_mod hsize)
  simp only [offset?] at h
  split at h
  · cases h
    rfl
  · split at h
    · cases h
      rfl
    · cases h
      rfl
    · exact hsized (fun n => n) (by omega) h
    · exact hsized (fun n => -n) (by omega) h
    · exact hsized (fun n => -n) (by omega) h
    · cases h

theorem ofSeconds?_eq_some {seconds : Int} {nanos : Nat} {t : Instant}
    (h : ofSeconds? seconds nanos = some t) :
    firstSecond ≤ t.seconds.toInt ∧ t.seconds.toInt ≤ lastSecond ∧ t.seconds.toInt = seconds ∧
      t.nanos = nanos := by
  unfold ofSeconds? at h
  split at h
  · split at h
    · next hrange =>
      cases h
      have hfirst : -2 ^ 63 ≤ firstSecond := by decide
      have hlast : lastSecond < 2 ^ 63 := by decide
      have hself : (Int64.ofInt seconds).toInt = seconds :=
        Int64.toInt_ofInt_of_le (by omega) (by omega)
      exact ⟨hself.symm ▸ hrange.1, hself.symm ▸ hrange.2, hself, rfl⟩
    · cases h
  · cases h

/-- The instants that some text denotes. -/
def Denotable (t : Instant) : Prop := ∃ cs, read? cs = some t

/-- Which instants have a text: those in range, with a leap second only at the end of a minute. -/
theorem denotable_iff {t : Instant} :
    t.Denotable ↔ firstSecond ≤ t.seconds.toInt ∧ t.seconds.toInt ≤ lastSecond ∧
      (1000000000 ≤ t.nanos → t.seconds.toInt % 60 = 59) := by
  constructor
  · rintro ⟨cs, h⟩
    simp only [read?, Option.bind_eq_bind, Option.bind_eq_some_iff, Prod.exists] at h
    obtain ⟨date, _, -, _, -, second, nanos, _, htime, offset, _, hoffset, h⟩ := h
    have hleap := time?_leap htime
    have hminutes := offset?_mod hoffset
    split at h
    · obtain ⟨hfirst, hlast, hseconds, hnanos⟩ := ofSeconds?_eq_some h
      exact ⟨hfirst, hlast, by omega⟩
    · cases h
  · rintro ⟨first, last, leap⟩
    exact ⟨t.text, read?_text first last leap⟩

theorem Denotable.read?_text {t : Instant} (h : t.Denotable) : read? t.text = some t := by
  obtain ⟨first, last, leap⟩ := denotable_iff.mp h
  exact Instant.read?_text first last leap

/-- Digits, and the marks that stand between numbers of an instant. -/
def IsTextChar (c : Char) : Prop := isDigit c = true ∨ c ∈ ['-', '+', ':', '.', 'T', 'Z']

theorem isTextChar_of_mem_text (t : Instant) : ∀ c ∈ t.text, IsTextChar c := by
  have hdigits (width n : Nat) : ∀ c ∈ paddedDigits width n, IsTextChar c :=
    fun c hc => .inl (isDigit_of_mem_paddedDigits hc)
  have hyear (year : Int) : ∀ c ∈ yearText year, IsTextChar c := by
    rw [yearText]
    split
    · exact hdigits 4 _
    · rw [List.forall_mem_cons]
      constructor
      · split <;> simp [IsTextChar]
      · exact hdigits 4 _
  have hpoint (width n : Nat) : ∀ c ∈ '.' :: paddedDigits width n, IsTextChar c :=
    List.forall_mem_cons.mpr ⟨by simp [IsTextChar], hdigits width n⟩
  have hfraction (nanos : Nat) : ∀ c ∈ fractionText nanos, IsTextChar c := by
    unfold fractionText
    split
    · nofun
    · split
      · exact hpoint 3 _
      · split
        · exact hpoint 6 _
        · exact hpoint 9 _
  have hdash : IsTextChar '-' := by simp [IsTextChar]
  have hcolon : IsTextChar ':' := by simp [IsTextChar]
  have htime : IsTextChar 'T' := by simp [IsTextChar]
  have hzone : IsTextChar 'Z' := by simp [IsTextChar]
  simp only [text, List.forall_mem_append, List.forall_mem_cons]
  exact ⟨⟨⟨⟨⟨⟨⟨hyear _, hdash, hdigits 2 _⟩, hdash, hdigits 2 _⟩, htime, hdigits 2 _⟩,
    hcolon, hdigits 2 _⟩, hcolon, hdigits 2 _⟩, hfraction _⟩, hzone, nofun⟩

end Instant
end LambdaScript
