import LambdaScript.Proofs.Number.Range
import LambdaScript.Proofs.Text.Numeral
import LambdaScript.Value.Convert

/-! # Integers as texts and characters

A string becomes an integer exactly if it is the numeral of one between blanks, and the text of an
integer is such a numeral. An integer becomes a character exactly if it is the code of one. So the
conversions that turn an integer into something else and back lose nothing.
-/

namespace LambdaScript
namespace Text

/-- The integers that a string denotes: it is a numeral with blanks around it. -/
def Denotes (s : String) (n : Int) : Prop := ∃ core, Stripped s.toList core ∧ Numeral core n

theorem denotes_iff {s : String} {n : Int} :
    Denotes s n ↔ readInt? (trim s.toList) = some n := by
  constructor
  · rintro ⟨core, hcore, hnumeral⟩
    rw [hcore.trim_eq]
    exact readInt?_eq_some_iff.mpr hnumeral
  · intro h
    exact ⟨_, stripped_trim _, readInt?_eq_some_iff.mp h⟩

theorem isBlank_of_mem_intText {n : Int} {c : Char} (h : c ∈ (intText n).toList) :
    isBlank c = false := by
  rcases mem_intText h with h | rfl
  · exact isBlank_of_isDigit h
  · rfl

/-- Blanks around the text of an integer do not change what it denotes. -/
theorem denotes_intText {before after : String} (hbefore : ∀ c ∈ before.toList, isBlank c = true)
    (hafter : ∀ c ∈ after.toList, isBlank c = true) (n : Int) :
    Denotes (before ++ intText n ++ after) n := by
  refine ⟨(intText n).toList, ⟨⟨before.toList, after.toList, ?_, hbefore, hafter⟩, ?_, ?_⟩, ?_⟩
  · rw [String.toList_append, String.toList_append, List.append_assoc]
  · intro c hc
    exact isBlank_of_mem_intText (List.mem_of_mem_head? hc)
  · intro c hc
    exact isBlank_of_mem_intText (List.mem_of_mem_getLast? hc)
  · exact readInt?_eq_some_iff.mp (readInt?_intText n)

end Text

namespace Value

/-- Conversions to types that are neither nullable nor composed. -/
theorem convert_eq_ok_iff {v w : Value} {t : CastType} (h : t.isScalar = true) :
    v.convert t = .ok w ↔ v.convert? t = some w := by
  cases t with
  | nullable inner => cases h
  | _ =>
    simp only [convert]
    split
    · next hsome => simp [hsome]
    · next hnone => simp [hnone]

/-- The types whose values are words, with what makes a value of a word. -/
inductive WordType : CastType → (Int64 → Value) → Prop
  | integer : WordType .integer integer
  | enumeration (type : TypeName) : WordType (.enumeration type) (enumeration type)

theorem WordType.convert_eq_ok_iff {t : CastType} {make : Int64 → Value} (h : WordType t make)
    {v w : Value} : v.convert t = .ok w ↔ ∃ n, v.toWord? = some n ∧ make n = w := by
  cases h with
  | integer =>
    rw [Value.convert_eq_ok_iff rfl]
    exact Option.map_eq_some_iff
  | enumeration type =>
    rw [Value.convert_eq_ok_iff rfl]
    exact Option.map_eq_some_iff

theorem convert_char_eq_ok_iff {v w : Value} :
    v.convert .char = .ok w ↔ ∃ c, v.toChar? = some c ∧ char c = w := by
  rw [convert_eq_ok_iff rfl]
  exact Option.map_eq_some_iff

theorem toWord?_string_eq_some_iff {s : String} {n : Int64} :
    (string s).toWord? = some n ↔ Text.Denotes s n.toInt := by
  simp [toWord?, Option.bind_eq_some_iff, Word.ofInt?_eq_some_iff, Text.denotes_iff]

/-- A string is converted to the word of the integer that it denotes, if that is in range. -/
theorem exists_toWord?_string_iff {s : String} :
    (∃ n, (string s).toWord? = some n) ↔
      ∃ n, Text.Denotes s n ∧ Word.least ≤ n ∧ n ≤ Word.greatest := by
  constructor
  · rintro ⟨n, hn⟩
    exact ⟨n.toInt, toWord?_string_eq_some_iff.mp hn, n.le_toInt, Int.le_of_lt_add_one n.toInt_lt⟩
  · rintro ⟨n, hn, hleast, hgreatest⟩
    obtain ⟨w, -, rfl⟩ := Word.exists_ofInt? hleast hgreatest
    exact ⟨w, toWord?_string_eq_some_iff.mpr hn⟩

theorem toNat_ofNat {n : Nat} (h : n.isValidChar) : (Char.ofNat n).toNat = n := by
  rw [Char.ofNat, dif_pos h]
  rfl

/-- Characters and their codes determine each other. -/
theorem charOfCode?_eq_some_iff {n : Int} {c : Char} : charOfCode? n = some c ↔ n = c.toNat := by
  rw [charOfCode?, Option.ite_none_right_eq_some]
  constructor
  · rintro ⟨⟨hn, hvalid⟩, hc⟩
    rw [← Option.some.inj hc, toNat_ofNat hvalid, Int.toNat_of_nonneg hn]
  · rintro rfl
    exact ⟨⟨Int.natCast_nonneg _, c.valid⟩, congrArg some (Char.ofNat_toNat c)⟩

/-- The codes of characters are those of the Unicode range outside of the surrogates. -/
theorem exists_charOfCode?_iff {n : Int} :
    (∃ c, charOfCode? n = some c) ↔
      0 ≤ n ∧ n ≤ 0x10FFFF ∧ ¬ (0xD800 ≤ n ∧ n ≤ 0xDFFF) := by
  simp only [charOfCode?, Option.ite_none_right_eq_some, exists_and_left, Option.some.injEq,
    exists_eq', and_true, Nat.isValidChar]
  omega

/-- The word of a character is its code. -/
theorem toWord?_char_eq_some_iff {c : Char} {n : Int64} :
    (char c).toWord? = some n ↔ n.toInt = c.toNat := by
  have hvalid : c.toNat.isValidChar := c.valid
  have hcode : (Int64.ofNat c.toNat).toInt = c.toNat := by
    unfold Nat.isValidChar at hvalid
    exact Int64.toInt_ofNat_of_lt (by omega)
  rw [toWord?, Option.some.injEq, ← hcode, Int64.toInt_inj, eq_comm]

/-- Converting between integers, strings, characters and enumerations is exact. A string becomes a
word exactly if it denotes an integer in range, and becomes that integer; so the text of an integer
becomes the integer again, whatever blanks are around it. Characters become their codes and come
back from them, and the integers that become characters are the codes of characters. Enumerations
come back from their integers. -/
theorem recoding_exact :
    (∀ (t : CastType) (make : Int64 → Value), WordType t make → ∀ s : String,
      (∀ v, (string s).convert t = .ok v ↔ ∃ n : Int64, Text.Denotes s n.toInt ∧ make n = v) ∧
      ((∃ v, (string s).convert t = .ok v) ↔
        ∃ n, Text.Denotes s n ∧ Word.least ≤ n ∧ n ≤ Word.greatest)) ∧
    (∀ (n : Int64) (before after : String), (∀ c ∈ before.toList, Text.isBlank c = true) →
      (∀ c ∈ after.toList, Text.isBlank c = true) →
      ∃ s, (integer n).convert .string = .ok (string s) ∧
        (string (before ++ s ++ after)).convert .integer = .ok (integer n)) ∧
    (∀ c : Char, ((char c).convert .integer).bind (·.convert .char) = .ok (char c)) ∧
    (∀ (n : Int64) (v : Value), (integer n).convert .char = .ok v →
      v.convert .integer = .ok (integer n)) ∧
    (∀ n : Int64, (∃ v, (integer n).convert .char = .ok v) ↔
      0 ≤ n.toInt ∧ n.toInt ≤ 0x10FFFF ∧ ¬ (0xD800 ≤ n.toInt ∧ n.toInt ≤ 0xDFFF)) ∧
    ∀ (type : TypeName) (n : Int64),
      ((enumeration type n).convert .integer).bind (·.convert (.enumeration type)) =
        .ok (enumeration type n) := by
  refine ⟨fun t make ht s => ⟨fun v => ?_, ?_⟩, fun n before after hbefore hafter => ?_,
    fun c => ?_, fun n v hv => ?_, fun n => ?_, fun type n => rfl⟩
  · simp only [ht.convert_eq_ok_iff, toWord?_string_eq_some_iff]
  · simp only [ht.convert_eq_ok_iff, ← exists_toWord?_string_iff]
    rw [exists_comm]
    simp
  · refine ⟨Text.intText n.toInt, rfl, WordType.integer.convert_eq_ok_iff.mpr ⟨n, ?_, rfl⟩⟩
    exact toWord?_string_eq_some_iff.mpr (Text.denotes_intText hbefore hafter n.toInt)
  · have hcode := toWord?_char_eq_some_iff.mp (rfl : (char c).toWord? = _)
    exact convert_char_eq_ok_iff.mpr ⟨c, charOfCode?_eq_some_iff.mpr hcode, rfl⟩
  · obtain ⟨c, hc, rfl⟩ := convert_char_eq_ok_iff.mp hv
    have hcode := charOfCode?_eq_some_iff.mp hc
    exact WordType.integer.convert_eq_ok_iff.mpr ⟨n, toWord?_char_eq_some_iff.mpr hcode, rfl⟩
  · simp only [convert_char_eq_ok_iff, ← exists_charOfCode?_iff]
    rw [exists_comm]
    simp [toChar?]

/-- The least word between an ideographic space and a line end, and the last character. -/
theorem recoding_exact_least :
    (∃ s, (integer (-9223372036854775808)).convert .string = .ok (string s) ∧
      (string ("\u3000" ++ s ++ "\n")).convert .integer =
        .ok (integer (-9223372036854775808))) ∧
    ((string " +07").convert (.enumeration ⟨"Color"⟩) = .ok (enumeration ⟨"Color"⟩ 7) ∧
      ∃ n : Int64, Text.Denotes " +07" n.toInt ∧
        enumeration ⟨"Color"⟩ n = enumeration ⟨"Color"⟩ 7) ∧
    (integer 0x10FFFF).convert .char = .ok (char (Char.ofNat 0x10FFFF)) ∧
    (char (Char.ofNat 0x10FFFF)).convert .integer = .ok (integer 0x10FFFF) := by
  obtain ⟨hwords, htexts, -, hchars, -⟩ := recoding_exact
  have hcolor : (string " +07").convert (.enumeration ⟨"Color"⟩) =
      .ok (enumeration ⟨"Color"⟩ 7) := rfl
  have hlast : (integer 0x10FFFF).convert .char = .ok (char (Char.ofNat 0x10FFFF)) := rfl
  have hdenotes := ((hwords _ _ (.enumeration ⟨"Color"⟩) " +07").1 _).mp hcolor
  have hspace : ∀ c ∈ "\u3000".toList, Text.isBlank c = true := List.forall_mem_singleton.mpr rfl
  have hline : ∀ c ∈ "\n".toList, Text.isBlank c = true := List.forall_mem_singleton.mpr rfl
  exact ⟨htexts _ _ _ hspace hline, ⟨hcolor, hdenotes⟩, hlast, hchars _ _ hlast⟩

end Value
end LambdaScript
