import LambdaScript.Time.Calendar

/-! # Days and dates

Every day has exactly one date: the date of a day exists in the calendar and is counted as that day
again. The year is found in its cycle of 400 years, and the month by taking months off the front of
the year.
-/

namespace LambdaScript.Date

theorem cycleDays_yearOfCycle_le {n : Nat} (h : n < 146097) : cycleDays (yearOfCycle n) ≤ n := by
  simp only [yearOfCycle]
  split
  · next hnext => exact hnext
  · unfold cycleDays
    omega

theorem lt_cycleDays_yearOfCycle {n : Nat} (h : n < 146097) :
    n < cycleDays (yearOfCycle n + 1) := by
  simp only [yearOfCycle]
  split
  · unfold cycleDays
    omega
  · next hnext => omega

/-- A year starts in its cycle after the years of the cycle before it. -/
theorem startOfYear_cycle (cycle : Int) (k : Nat) :
    startOfYear (400 * cycle + k + 1) = 146097 * cycle + cycleDays k := by
  simp only [startOfYear, cycleDays]
  omega

theorem startOfYear_yearOfDay_le (n : Int) : startOfYear (yearOfDay n) ≤ n := by
  have hday : (n % 146097).toNat < 146097 := by omega
  have hle := cycleDays_yearOfCycle_le hday
  rw [yearOfDay, startOfYear_cycle]
  omega

theorem lt_startOfYear_yearOfDay (n : Int) : n < startOfYear (yearOfDay n + 1) := by
  have hday : (n % 146097).toNat < 146097 := by omega
  have hlt := lt_cycleDays_yearOfCycle hday
  have hyear : yearOfDay n + 1 =
      400 * (n / 146097) + (yearOfCycle (n % 146097).toNat + 1 : Nat) + 1 := by
    unfold yearOfDay
    omega
  rw [hyear, startOfYear_cycle]
  omega

theorem startOfYear_mono {a b : Int} (h : a ≤ b) : startOfYear a ≤ startOfYear b := by
  simp only [startOfYear]
  omega

/-- The year of a day is the last one that has started. -/
theorem le_yearOfDay_iff {n year : Int} : year ≤ yearOfDay n ↔ startOfYear year ≤ n := by
  constructor
  · intro h
    exact Int.le_trans (startOfYear_mono h) (startOfYear_yearOfDay_le n)
  · intro h
    apply Int.not_lt.mp
    intro hlt
    have hnext := startOfYear_mono (show yearOfDay n + 1 ≤ year by omega)
    have hday := lt_startOfYear_yearOfDay n
    omega

/-- The days between the starts of two years belong to the years between them. -/
theorem yearOfDay_bounds {n first last : Int} (hfirst : startOfYear first ≤ n)
    (hlast : n < startOfYear (last + 1)) : first ≤ yearOfDay n ∧ yearOfDay n ≤ last := by
  refine ⟨le_yearOfDay_iff.mpr hfirst, Int.not_lt.mp fun h => ?_⟩
  exact absurd (le_yearOfDay_iff.mp h) (Int.not_le.mpr hlast)

theorem isLeap_iff {year : Int} :
    isLeap year = true ↔ year % 4 = 0 ∧ (year % 100 ≠ 0 ∨ year % 400 = 0) := by
  simp [isLeap]

theorem foldl_add_cons (n : Nat) (ns : List Nat) :
    (n :: ns).foldl (· + ·) 0 = n + ns.foldl (· + ·) 0 := by
  rw [← List.sum_eq_foldl_nat, ← List.sum_eq_foldl_nat, List.sum_cons]

/-- The months of a year fill it. -/
theorem foldl_monthLengths (year : Int) :
    ((monthLengths year).foldl (· + ·) 0 : Nat) = startOfYear (year + 1) - startOfYear year := by
  by_cases h : isLeap year = true
  · have hsum : (monthLengths year).foldl (· + ·) 0 = 366 := by simp [monthLengths, h]
    rw [isLeap_iff] at h
    simp only [hsum, startOfYear]
    omega
  · have hsum : (monthLengths year).foldl (· + ·) 0 = 365 := by simp [monthLengths, h]
    rw [isLeap_iff] at h
    simp only [hsum, startOfYear]
    omega

theorem le_of_isValid {d : Date} (h : d.isValid = true) : d.month ≤ 12 ∧ d.day ≤ 31 := by
  simp only [isValid, Bool.and_eq_true, decide_eq_true_eq] at h
  obtain ⟨⟨hmonth, hday⟩, hlength⟩ := h
  have hlengths : (monthLengths d.year).length = 12 := rfl
  by_cases hindex : d.month - 1 < (monthLengths d.year).length
  · have hle : ∀ n ∈ monthLengths d.year, n ≤ 31 := by
      unfold monthLengths
      split <;> simp
    have hmem := hle _ (List.getElem_mem hindex)
    rw [List.getD_eq_getElem?_getD, List.getElem?_eq_getElem hindex, Option.getD_some] at hlength
    omega
  · rw [List.getD_eq_getElem?_getD, List.getElem?_eq_none (Nat.not_lt.mp hindex)] at hlength
    simp only [Option.getD_none] at hlength
    omega

/-- Taking months off the front: the month that is left is one of the list, the day is one of the
month, and the months before it and the day count up to `n`. -/
theorem monthAndDay_spec {lengths : List Nat} {n : Nat} (h : n < lengths.foldl (· + ·) 0)
    (month : Nat) :
    ∃ k, (monthAndDay month lengths n).1 = month + k ∧ 1 ≤ (monthAndDay month lengths n).2 ∧
      (monthAndDay month lengths n).2 ≤ lengths.getD k 0 ∧
      (lengths.take k).foldl (· + ·) 0 + (monthAndDay month lengths n).2 = n + 1 := by
  induction lengths generalizing month n with
  | nil => simp at h
  | cons length lengths ih =>
    rw [monthAndDay]
    split
    · next hn => exact ⟨0, by simp; omega⟩
    · next hn =>
      rw [foldl_add_cons] at h
      obtain ⟨k, hmonth, hday, hlength, hcount⟩ := ih (n := n - length) (by omega) (month + 1)
      refine ⟨k + 1, by omega, hday, by simpa using hlength, ?_⟩
      rw [List.take_succ_cons, foldl_add_cons]
      omega

/-- The date of a day exists and is counted as that day. -/
theorem ofDays_spec (n : Int) : (ofDays n).isValid = true ∧ (ofDays n).toDays = n := by
  have hle := startOfYear_yearOfDay_le n
  have hlt := lt_startOfYear_yearOfDay n
  have hdays := foldl_monthLengths (yearOfDay n)
  have hn : (n - startOfYear (yearOfDay n)).toNat <
      (monthLengths (yearOfDay n)).foldl (· + ·) 0 := by omega
  obtain ⟨k, hmonth, hday, hlength, hcount⟩ := monthAndDay_spec hn 1
  simp only [ofDays, isValid, toDays, daysBefore, hmonth, Nat.add_sub_cancel_left,
    Bool.and_eq_true, decide_eq_true_eq]
  omega

end LambdaScript.Date
