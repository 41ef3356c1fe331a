import LambdaScript.Proofs.Toml.Number

/-! # Words and strings of TOML

Words are as long as they can be, so a word is read as itself in front of what cannot go on with it.
A date and a time may have a blank between them, and are then two words that are read as one. Every
string is read back from its text in quotes.
-/

namespace LambdaScript.Toml

/-! ## Dates, times and other words -/

/-- The text of a date or a time, or of both with a letter or a blank between them. -/
inductive IsMomentText : List Char → Prop
  | word {cs : List Char} (chars : ∀ c ∈ cs, isWordChar c = true) (moment : isMoment cs = true) :
      IsMomentText cs
  | spaced {date time : List Char} (date_chars : ∀ c ∈ date, isWordChar c = true)
      (time_chars : ∀ c ∈ time, isWordChar c = true) (isDate_eq : isDate date = true)
      (isTime_eq : isTimeWithOffset time = true) : IsMomentText (date ++ ' ' :: time)

theorem ofWord?_moment {cs : List Char} (h : isMoment cs = true) :
    ofWord? cs = some (.moment (String.ofList cs)) := by
  have htrue : cs ≠ "true".toList := by
    rintro rfl
    revert h
    decide
  have hfalse : cs ≠ "false".toList := by
    rintro rfl
    revert h
    decide
  rw [ofWord?, if_neg htrue, if_neg hfalse, if_pos h]

/-- What stands behind a value that is written. -/
def Follows (rest : List Char) : Prop :=
  ∀ c, rest.head? = some c → c ∈ [',', ']', '\x7d', '\n']

theorem Follows.cons {c : Char} (h : c ∈ [',', ']', '\x7d', '\n']) (cs : List Char) :
    Follows (c :: cs) := by
  intro d hd
  cases hd
  exact h

theorem Follows.isWordChar_head {rest : List Char} (h : Follows rest) {c : Char}
    (hc : rest.head? = some c) : isWordChar c = false := by
  have hmem := h c hc
  simp only [List.mem_cons, List.not_mem_nil, or_false] at hmem
  rcases hmem with rfl | rfl | rfl | rfl <;> rfl

theorem word?_append {word rest : List Char} (chars : ∀ c ∈ word, isWordChar c = true)
    (hrest : Follows rest) : word? (word ++ rest) = (ofWord? word).map (·, rest) := by
  have htake := (Text.takeWhile_append_eq chars fun c hc => hrest.isWordChar_head hc).1
  simp only [word?, htake, List.drop_left]
  split
  · next after =>
    exact absurd (hrest ' ' rfl) (by decide)
  · rfl

theorem word?_moment {cs rest : List Char} (h : IsMomentText cs) (hrest : Follows rest) :
    word? (cs ++ rest) = some (.moment (String.ofList cs), rest) := by
  cases h with
  | word chars moment => rw [word?_append chars hrest, ofWord?_moment moment, Option.map_some]
  | @spaced date time date_chars time_chars isDate_eq isTime_eq =>
    have hblank : ∀ c, (' ' :: (time ++ rest)).head? = some c → isWordChar c = false := by
      intro c hc
      cases hc
      rfl
    have hdate := (Text.takeWhile_append_eq date_chars hblank).1
    have htime := (Text.takeWhile_append_eq time_chars fun c hc => hrest.isWordChar_head hc).1
    rw [List.append_assoc, List.cons_append]
    simp only [word?, hdate, List.drop_left, isDate_eq, htime, isTime_eq, if_true]

/-! ## Strings -/

/-- A character of a string in quotes. Quotes and backslashes are escaped, and the characters that a
string must not have are written by their codes. -/
def writeChar (c : Char) : List Char :=
  if c = '"' ∨ c = '\\' then ['\\', c]
  else if isPrintable c then [c]
  else ['\\', 'u', '0', '0', Json.hexDigit (c.toNat / 16), Json.hexDigit c.toNat]

def writeString (s : String) : String :=
  "\"" ++ String.ofList (s.toList.flatMap writeChar) ++ "\""

theorem toList_writeString (s : String) :
    (writeString s).toList = '"' :: (s.toList.flatMap writeChar ++ ['"']) := by
  simp [writeString]

theorem escape?_code {c : Char} (h : c.toNat < 0x100) (rest : List Char) :
    escape? ('u' :: '0' :: '0' :: Json.hexDigit (c.toNat / 16) :: Json.hexDigit c.toNat :: rest) =
      some (c, rest) := by
  have hvalid : c.toNat.isValidChar := .inl (by omega)
  simp [escape?, codePoint?, Json.ofHex?_code h, hvalid]

theorem basicRest?_writeChar (fuel : ℕ) (done : List Char) (c : Char) (rest : List Char) :
    basicRest? (fuel + 1) done (writeChar c ++ rest) = basicRest? fuel (c :: done) rest := by
  by_cases hmark : c = '"' ∨ c = '\\'
  · rcases hmark with rfl | rfl
    · simp [writeChar, basicRest?, escape?]
    · simp [writeChar, basicRest?, escape?]
  · rw [writeChar, if_neg hmark]
    obtain ⟨hquote, hslash⟩ := not_or.mp hmark
    by_cases hprintable : isPrintable c = true
    · rw [if_pos hprintable]
      simp [basicRest?, hquote, hslash, hprintable]
    · rw [if_neg hprintable]
      have hcode : c.toNat < 0x100 := by
        simp only [isPrintable, Bool.or_eq_true, Bool.and_eq_true, decide_eq_true_eq] at hprintable
        omega
      simp [basicRest?, escape?_code hcode]

theorem basicRest?_flatMap {fuel : ℕ} {cs : List Char} (hfuel : cs.length < fuel)
    (done rest : List Char) :
    basicRest? fuel done (cs.flatMap writeChar ++ '"' :: rest) =
      some (String.ofList (done.reverse ++ cs), rest) := by
  induction cs generalizing fuel done with
  | nil =>
    obtain ⟨fuel, rfl⟩ := Nat.exists_eq_succ_of_ne_zero (Nat.ne_of_gt hfuel)
    simp [basicRest?]
  | cons c cs ih =>
    obtain ⟨fuel, rfl⟩ := Nat.exists_eq_succ_of_ne_zero (Nat.ne_of_gt (Nat.zero_lt_of_lt hfuel))
    rw [List.flatMap_cons, List.append_assoc, basicRest?_writeChar, ih (by simpa using hfuel)]
    simp

theorem exists_writeChar_eq_cons (c : Char) : ∃ d ds, writeChar c = d :: ds ∧ d ≠ '"' := by
  by_cases hmark : c = '"' ∨ c = '\\'
  · exact ⟨'\\', [c], if_pos hmark, by decide⟩
  · rw [writeChar, if_neg hmark]
    by_cases hprintable : isPrintable c = true
    · exact ⟨c, [], if_pos hprintable, (not_or.mp hmark).1⟩
    · exact ⟨'\\', _, if_neg hprintable, by decide⟩

theorem length_le_flatMap_writeChar (cs : List Char) :
    cs.length ≤ (cs.flatMap writeChar).length := by
  induction cs with
  | nil => exact Nat.le_refl 0
  | cons c cs ih =>
    obtain ⟨d, ds, hc, -⟩ := exists_writeChar_eq_cons c
    rw [List.flatMap_cons, hc, List.length_append, List.length_cons, List.length_cons]
    omega

theorem basicRest?_writeString (s : String) (rest : List Char) :
    basicRest? ((s.toList.flatMap writeChar ++ '"' :: rest).length + 1) []
      (s.toList.flatMap writeChar ++ '"' :: rest) = some (s, rest) := by
  have hlength := length_le_flatMap_writeChar s.toList
  rw [basicRest?_flatMap (by rw [List.length_append]; omega)]
  simp

/-- A written string is read back where no quote follows it. -/
theorem string?_writeString (s : String) {rest : List Char} (hrest : Follows rest) :
    string? ((writeString s).toList ++ rest) = some (s, rest) := by
  have hread := basicRest?_writeString s rest
  rw [toList_writeString, List.cons_append, List.append_assoc, List.singleton_append, ← hread]
  cases s.toList with
  | nil =>
    cases rest with
    | nil => rfl
    | cons c rest =>
      have hc : c ≠ '"' := by
        rintro rfl
        exact absurd (hrest '"' rfl) (by decide)
      simp [string?, hc]
  | cons c cs =>
    obtain ⟨d, ds, hd, hne⟩ := exists_writeChar_eq_cons c
    rw [List.flatMap_cons, hd]
    simp [string?, hne]

end LambdaScript.Toml
