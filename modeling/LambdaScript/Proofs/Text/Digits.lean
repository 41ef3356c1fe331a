import LambdaScript.Number.Binary64
import LambdaScript.Text.Digits

/-! # Digits of numbers

The digits that are written for a number are digits, at least one of them, without a zero in front
of others, and they are read as the number. Padded digits have zeros in front and are read as the
same number. A row of digits denotes a number with at most as many digits.
-/

namespace LambdaScript.Text

theorem isDigit_eq_isDigit (c : Char) : isDigit c = c.isDigit := by
  simp [isDigit, Char.isDigit, Char.le_def, UInt32.le_iff_toNat_le]

theorem isBlank_of_isDigit {c : Char} (h : isDigit c = true) : isBlank c = false := by
  simp only [isDigit, Bool.and_eq_true, decide_eq_true_eq] at h
  have hlow : 48 ≤ c.toNat := h.1
  have hhigh : c.toNat ≤ 57 := h.2
  simp only [isBlank, isBlankCode, Bool.or_eq_false_iff, Bool.and_eq_false_iff, beq_eq_false_iff_ne,
    decide_eq_false_iff_not]
  omega

theorem isDigit_of_mem_digits {n : Nat} {c : Char} (h : c ∈ digits n) : isDigit c = true := by
  rw [isDigit_eq_isDigit]
  exact Nat.isDigit_of_mem_toDigits (by decide) (by decide) h

theorem digits_ne_nil (n : Nat) : digits n ≠ [] := Nat.toDigits_ne_nil

theorem exists_digits_eq_cons (n : Nat) : ∃ c cs, digits n = c :: cs ∧ isDigit c = true := by
  obtain ⟨c, cs, hn⟩ := List.exists_cons_of_ne_nil (digits_ne_nil n)
  exact ⟨c, cs, hn, isDigit_of_mem_digits (by rw [hn]; exact List.mem_cons_self)⟩

theorem ofDigits_digits (n : Nat) : ofDigits (digits n) = n := Nat.ofDigitChars_ten_toDigits

/-- A number below ten has one digit; any other has those of its tenth in front of the last. -/
theorem digits_eq_if (n : Nat) :
    digits n =
      if n < 10 then [Nat.digitChar n] else digits (n / 10) ++ [Nat.digitChar (n % 10)] :=
  Nat.toDigits_eq_if (by decide)

theorem head_digits_ne_zero {n : Nat} (h : n ≠ 0) : (digits n).head? ≠ some '0' := by
  induction n using Nat.strongRecOn with
  | ind n ih =>
  rw [digits_eq_if]
  split
  · next hn =>
    have hne : ∀ k < 10, k ≠ 0 → Nat.digitChar k ≠ '0' := by decide
    simpa using hne n hn h
  · next hn =>
    have htenth := ih (n / 10) (by omega) (by omega)
    obtain ⟨c, cs, hc⟩ := List.exists_cons_of_ne_nil (digits_ne_nil (n / 10))
    rw [hc] at htenth ⊢
    exact htenth

/-- Only zero itself is written with a zero in front. -/
theorem digits_eq_zero_of_head {n : Nat} (h : (digits n).head? = some '0') : digits n = ['0'] := by
  by_cases hn : n = 0
  · subst hn
    rfl
  · exact absurd h (head_digits_ne_zero hn)

theorem takeWhile_append_eq {p : Char → Bool} {cs rest : List Char} (hcs : ∀ c ∈ cs, p c = true)
    (hrest : ∀ c, rest.head? = some c → p c = false) :
    (cs ++ rest).takeWhile p = cs ∧ (cs ++ rest).dropWhile p = rest := by
  rw [List.takeWhile_append_of_pos hcs, List.dropWhile_append_of_pos hcs]
  cases rest with
  | nil => simp
  | cons c rest => simp [hrest c rfl]

theorem digitValue_lt {c : Char} (h : isDigit c = true) : digitValue c < 10 := by
  simp only [isDigit, Bool.and_eq_true, decide_eq_true_eq] at h
  have hhigh : c.toNat ≤ 57 := h.2
  have hzero : '0'.toNat = 48 := rfl
  unfold digitValue
  omega

theorem ofDigits_lt {ds : List Char} (hds : ∀ c ∈ ds, isDigit c = true) :
    ofDigits ds < pow10 ds.length := by
  have hfold (n : Nat) :
      ds.foldl (fun n c => 10 * n + digitValue c) n < (n + 1) * 10 ^ ds.length := by
    induction ds generalizing n with
    | nil => simp
    | cons c ds ih =>
      have hc := digitValue_lt (hds c (by simp))
      calc (c :: ds).foldl (fun n c => 10 * n + digitValue c) n
          < (10 * n + digitValue c + 1) * 10 ^ ds.length := ih (fun d hd => hds d (by simp [hd])) _
        _ ≤ ((n + 1) * 10) * 10 ^ ds.length := Nat.mul_le_mul_right _ (by omega)
        _ = (n + 1) * 10 ^ (c :: ds).length := by
          rw [List.length_cons, Nat.pow_succ', Nat.mul_assoc]
  simpa [ofDigits, pow10] using hfold 0

theorem toList_intText {n : Int} (h : 0 ≤ n) : (intText n).toList = digits n.natAbs := by
  rw [intText, if_neg (Int.not_lt.mpr h), natText, String.toList_ofList]

theorem toList_intText_of_neg {n : Int} (h : n < 0) :
    (intText n).toList = '-' :: digits n.natAbs := by
  simp [intText, h, natText]

/-- The text of an integer consists of digits and the minus sign. -/
theorem mem_intText {n : Int} {c : Char} (hc : c ∈ (intText n).toList) :
    isDigit c = true ∨ c = '-' := by
  by_cases hn : n < 0
  · rw [toList_intText_of_neg hn] at hc
    exact (List.mem_cons.mp hc).symm.imp_left isDigit_of_mem_digits
  · rw [toList_intText (Int.not_lt.mp hn)] at hc
    exact .inl (isDigit_of_mem_digits hc)

theorem readNat?_digits (n : Nat) : readNat? (digits n) = some n := by
  have hall : (digits n).all isDigit = true := List.all_eq_true.mpr fun _ => isDigit_of_mem_digits
  simp [readNat?, digits_ne_nil, hall, ofDigits_digits]

theorem readInt?_digits (n : Nat) : readInt? (digits n) = some (n : Int) := by
  obtain ⟨c, cs, hcs, hc⟩ := exists_digits_eq_cons n
  unfold readInt?
  split
  · next h =>
    rw [hcs] at h
    cases h
    cases hc
  · next h =>
    rw [hcs] at h
    cases h
    cases hc
  · simp [readNat?_digits]

/-- The text of an integer is read as the integer. -/
theorem readInt?_intText (n : Int) : readInt? (intText n).toList = some n := by
  by_cases hn : n < 0
  · rw [toList_intText_of_neg hn]
    simp only [readInt?, readNat?_digits]
    exact congrArg some (by omega : -(n.natAbs : Int) = n)
  · rw [toList_intText (Int.not_lt.mp hn), readInt?_digits, Int.natAbs_of_nonneg (Int.not_lt.mp hn)]

theorem intText_injective : Function.Injective intText := by
  intro m n h
  have hread := readInt?_intText m
  rw [h, readInt?_intText] at hread
  exact (Option.some_inj.mp hread).symm

theorem isDigit_of_mem_paddedDigits {width n : Nat} {c : Char} (h : c ∈ paddedDigits width n) :
    isDigit c = true := by
  rcases List.mem_append.mp h with h | h
  · rw [(List.mem_replicate.mp h).2]
    rfl
  · exact isDigit_of_mem_digits h

theorem paddedDigits_ne_nil (width n : Nat) : paddedDigits width n ≠ [] :=
  List.append_ne_nil_of_right_ne_nil _ (digits_ne_nil n)

theorem ofDigits_paddedDigits (width n : Nat) : ofDigits (paddedDigits width n) = n := by
  change Nat.ofDigitChars 10 (paddedDigits width n) 0 = n
  rw [paddedDigits, Nat.ofDigitChars_append, Nat.ofDigitChars_replicate_zero, Nat.mul_zero]
  exact ofDigits_digits n

/-- A number that fits into the width fills it exactly. -/
theorem length_paddedDigits {width n : Nat} (hwidth : 0 < width) (h : n < pow10 width) :
    (paddedDigits width n).length = width := by
  have hlength : (digits n).length ≤ width :=
    (Nat.length_toDigits_le_iff (by decide) hwidth).mpr h
  simp only [paddedDigits, List.length_append, List.length_replicate]
  omega

end LambdaScript.Text
