import LambdaScript.Proofs.Json.Lexeme
import LambdaScript.Proofs.Number.Range
import LambdaScript.Toml.Lexeme

/-! # Numbers of TOML

The words for numbers, in both directions. A word denotes a 64-bit integer or a double-precision
number, of which the only NaNs are two, one for each sign; and every such number is read back from a
word. The text of an integer has neither a prefix of another base nor the shape of a date, and that
of a double-precision number has a fraction or an exponent, so that neither is read as the other.
-/

namespace LambdaScript

namespace Binary64

/-- A number that a word can denote: of the NaNs, one for each sign. -/
def IsRead (x : Binary64) : Prop :=
  x.isFinite = true ∨ ∃ negative, x = infinity negative ∨ x = nan negative

theorem isRead_ofFields {magnitude : ℕ} (h : magnitude ≤ infinityBits) (negative : Bool) :
    (ofFields negative magnitude).IsRead := by
  by_cases hlt : magnitude < infinityBits
  · exact .inl (isFinite_ofFields hlt)
  · rw [Nat.le_antisymm h (Nat.not_lt.mp hlt)]
    exact .inr ⟨negative, .inl rfl⟩

theorem isRead_nearest (negative : Bool) (num den : ℕ) : (nearest negative num den).IsRead := by
  rw [nearest]
  split
  · exact isRead_ofFields (Nat.zero_le _) negative
  · exact isRead_ofFields (Nat.min_le_right _ _) negative

theorem isRead_toBinary64 (d : Decimal) : d.toBinary64.IsRead := by
  rw [Decimal.toBinary64]
  split
  · exact isRead_ofFields (Nat.zero_le _) _
  · split
    · exact isRead_ofFields (Nat.le_refl _) _
    · exact isRead_nearest _ _ _

end Binary64

namespace Toml
open Text (isDigit)

/-! ## Decimals -/

/-- The digits behind the point of a mantissa, if there is one. -/
def fraction? : List Char → Option (List Char)
  | [] => some []
  | _ :: cs => plainDigits? isDigit cs

/-- The exponent behind a mantissa; without one there must be a fraction. -/
def power? (part : List Char) : List Char → Option Int
  | [] => if part.isEmpty then none else some 0
  | _ :: cs => exponent? cs

/-- Reads the decimal of a word behind its sign. -/
def decimal? (negative : Bool) (cs : List Char) : Option Decimal := do
  let mantissa := cs.takeWhile fun c => c ≠ 'e' && c ≠ 'E'
  let wholeText := mantissa.takeWhile (· ≠ '.')
  let whole ← wholeDigits? wholeText
  let part ← fraction? (mantissa.drop wholeText.length)
  let exponent ← power? part (cs.drop mantissa.length)
  return ⟨negative, Text.ofDigits (whole ++ part), exponent - part.length⟩

def rounded? (d : Decimal) : Option Binary64 :=
  if d.toBinary64 = .infinity false then none else some d.toBinary64

theorem float?_eq (cs : List Char) :
    float? cs =
      if (takeSign cs).2 = "inf".toList then some (.infinity (takeSign cs).1)
      else if (takeSign cs).2 = "nan".toList then some (.nan (takeSign cs).1)
      else (decimal? (takeSign cs).1 (takeSign cs).2).bind rounded? := by
  rw [float?]
  generalize takeSign cs = p
  obtain ⟨negative, cs⟩ := p
  simp only [decimal?, Option.bind_eq_bind, Option.bind_assoc]
  congr 3
  funext whole
  have hpower (part : List Char) (k : Int → Option Binary64) (rest : List Char) :
      (match rest with
        | [] => if part.isEmpty = true then none.bind k else (some 0).bind k
        | _ :: cs => (exponent? cs).bind k) = (power? part rest).bind k := by
    cases rest with
    | nil => by_cases h : part.isEmpty = true <;> simp [power?, h]
    | cons c rest => rfl
  cases (cs.takeWhile fun c => c ≠ 'e' && c ≠ 'E').drop
    ((cs.takeWhile fun c => c ≠ 'e' && c ≠ 'E').takeWhile (· ≠ '.')).length with
  | nil => exact hpower [] _ _
  | cons c tail =>
    apply congrArg (Option.bind (plainDigits? isDigit tail))
    funext part
    exact hpower part _ _

theorem isRead_of_float? {cs : List Char} {x : Binary64} (h : float? cs = some x) : x.IsRead := by
  rw [float?_eq] at h
  by_cases hinf : (takeSign cs).2 = "inf".toList
  · rw [if_pos hinf, Option.some_inj] at h
    exact .inr ⟨_, .inl h.symm⟩
  · rw [if_neg hinf] at h
    by_cases hnan : (takeSign cs).2 = "nan".toList
    · rw [if_pos hnan, Option.some_inj] at h
      exact .inr ⟨_, .inr h.symm⟩
    · rw [if_neg hnan] at h
      obtain ⟨d, -, hd⟩ := Option.bind_eq_some_iff.mp h
      obtain ⟨-, hx⟩ := Option.ite_none_left_eq_some.mp hd
      cases hx
      exact Binary64.isRead_toBinary64 d

/-! ## Digits -/

theorem underscoresSeparate_digits {cs : List Char} (h : ∀ c ∈ cs, isDigit c = true)
    (ne_nil : cs ≠ []) : underscoresSeparate isDigit cs = true := by
  fun_induction underscoresSeparate isDigit cs with
  | case1 => exact absurd rfl ne_nil
  | case2 c => exact h c List.mem_cons_self
  | case3 cs => cases h '_' List.mem_cons_self
  | case4 c cs => cases h '_' (List.mem_cons_of_mem c List.mem_cons_self)
  | case5 c cs hne _ _ ih =>
    rw [List.forall_mem_cons] at h
    rw [h.1, ih h.2 hne, Bool.and_true]

theorem of_underscoresSeparate {cs : List Char} (h : underscoresSeparate isDigit cs = true) :
    ∀ c ∈ cs, isDigit c = true ∨ c = '_' := by
  fun_induction underscoresSeparate isDigit cs with
  | case1 => cases h
  | case2 c => simpa using .inl h
  | case3 => cases h
  | case4 c cs _ ih =>
    simp only [Bool.and_eq_true] at h
    simpa [h.1] using ih h.2
  | case5 c cs _ _ _ ih =>
    simp only [Bool.and_eq_true] at h
    simpa [h.1] using ih h.2

theorem plainDigits?_digits {cs : List Char} (h : ∀ c ∈ cs, isDigit c = true) (ne_nil : cs ≠ []) :
    plainDigits? isDigit cs = some cs := by
  have hfilter : cs.filter (· ≠ '_') = cs := by
    apply List.filter_eq_self.mpr
    intro c hc
    apply decide_eq_true
    rintro rfl
    cases h '_' hc
  rw [plainDigits?, if_pos (underscoresSeparate_digits h ne_nil), hfilter]

theorem wholeDigits?_digits {cs : List Char} (h : ∀ c ∈ cs, isDigit c = true) (ne_nil : cs ≠ [])
    (proper : cs.head? = some '0' → cs = ['0']) : wholeDigits? cs = some cs := by
  rw [wholeDigits?, plainDigits?_digits h ne_nil]
  split
  · next c ds heq =>
    cases heq
    cases proper rfl
  · rfl

theorem exponent?_intText (e : Int) : exponent? (Text.intText e).toList = some e := by
  have hdigits := plainDigits?_digits (fun _ hc => Text.isDigit_of_mem_digits hc)
    (Text.digits_ne_nil e.natAbs)
  by_cases he : e < 0
  · simp [Text.toList_intText_of_neg he, exponent?, takeSign, hdigits, Text.ofDigits_digits,
      abs_of_neg he]
  · obtain ⟨c, cs, hcs, hc⟩ := Text.exists_digits_eq_cons e.natAbs
    have hsign := Json.takeSign_of_isDigit hc cs
    rw [← hcs] at hsign
    simp [Text.toList_intText (Int.not_lt.mp he), exponent?, hsign, hdigits, Text.ofDigits_digits,
      abs_of_nonneg (Int.not_lt.mp he)]

/-! ## Numerals -/

section numerals
variable {n : Decimal.Numeral} {d : Decimal}

/-- A numeral with its sign. -/
def signed (n : Decimal.Numeral) (d : Decimal) : List Char := d.signText.toList ++ n.chars

theorem not_mem_signed (h : n.Spells d) {c : Char} (hdigit : isDigit c = false)
    (hmark : c ∉ ['-', '.', 'e']) : c ∉ signed n d := by
  intro hc
  rcases h.mem_text hc with hc | hc
  · rw [hdigit] at hc
    cases hc
  · exact hmark hc

theorem isWordChar_of_isDigit {c : Char} (h : isDigit c = true) : isWordChar c = true := by
  rw [Text.isDigit_eq_isDigit] at h
  simp [isWordChar, Char.isAlphanum, h]

theorem isWordChar_of_mem_signed (h : n.Spells d) : ∀ c ∈ signed n d, isWordChar c = true := by
  intro c hc
  rcases h.mem_text hc with hc | hc
  · exact isWordChar_of_isDigit hc
  · simp only [List.mem_cons, List.not_mem_nil, or_false] at hc
    rcases hc with rfl | rfl | rfl <;> decide

theorem takeSign_signed (h : n.Spells d) : takeSign (signed n d) = (d.negative, n.chars) := by
  obtain ⟨c, cs, hcs, hc⟩ := h.exists_chars_eq_cons
  apply Binary64.takeSign_signText
  intro e he
  rw [hcs] at he
  cases he
  exact hc

/-- The characters of a date. -/
theorem chars_of_isDate {cs : List Char} (h : isDate cs = true) :
    (∀ c ∈ cs, isDigit c = true ∨ c = '-') ∧ (∀ c ∈ cs.take 4, isDigit c = true) ∧
      cs[4]? = some '-' := by
  have hlength : cs.length = 10 := by
    simp only [isDate, Bool.and_eq_true, decide_eq_true_eq] at h
    exact h.1.1.1.1
  match cs, hlength with
  | [y, y', y'', y''', s, m, m', s', d, d'], _ =>
    simp [isDate] at h ⊢
    tauto

/-- A number is no date: a date has a dash in its middle and neither a point nor an exponent. -/
theorem isDate_signed (h : n.Spells d) : isDate (signed n d) = false := by
  by_contra hdate
  obtain ⟨hall, hyear, hdash⟩ := chars_of_isDate (Bool.eq_true_of_not_eq_false hdate)
  cases hsign : d.negative with
  | true =>
    have hfirst := hyear '-' (by simp [signed, Decimal.signText, hsign])
    cases hfirst
  | false =>
    have htext : signed n d = n.chars := by simp [signed, Decimal.signText, hsign]
    rw [htext] at hall hdash
    have hpart : n.part = [] := by
      cases hpart : n.part with
      | nil => rfl
      | cons c part =>
        have hmem : '.' ∈ n.chars := by
          simp [Decimal.Numeral.chars, Decimal.Numeral.fractionChars, hpart]
        exact absurd (hall '.' hmem) (by decide)
    have hexponent : n.exponent = none := by
      cases hexponent : n.exponent with
      | none => rfl
      | some e =>
        have hmem : 'e' ∈ n.chars := by
          simp [Decimal.Numeral.chars, Decimal.Numeral.exponentChars, hexponent]
        exact absurd (hall 'e' hmem) (by decide)
    have hwhole : n.chars = n.whole := by
      simp [Decimal.Numeral.chars, Decimal.Numeral.fractionChars, Decimal.Numeral.exponentChars,
        hpart, hexponent]
    rw [hwhole] at hdash
    cases h.isDigit_of_mem_whole '-' (List.mem_of_getElem? hdash)

theorem isMoment_signed (h : n.Spells d) : isMoment (signed n d) = false := by
  have hcolon : ':' ∉ signed n d := not_mem_signed h (by decide) (by decide)
  have hupper : 'T' ∉ signed n d := not_mem_signed h (by decide) (by decide)
  have hlower : 't' ∉ signed n d := not_mem_signed h (by decide) (by decide)
  have hget {c : Char} (hc : c ∉ signed n d) (i : ℕ) : (signed n d)[i]? ≠ some c :=
    fun hi => hc (List.mem_of_getElem? hi)
  simp [isMoment, isDate_signed h, isTime, hget hcolon 2, hget hupper 10, hget hlower 10]

theorem ofWord?_signed (h : n.Spells d) :
    ofWord? (signed n d) = match integer? (signed n d) with
      | some w => some (.integer w)
      | none => (float? (signed n d)).map .float := by
  have htrue : signed n d ≠ "true".toList := by
    intro heq
    exact not_mem_signed h (c := 't') (by decide) (by decide) (by rw [heq]; decide)
  have hfalse : signed n d ≠ "false".toList := by
    intro heq
    exact not_mem_signed h (c := 'f') (by decide) (by decide) (by rw [heq]; decide)
  cases hint : integer? (signed n d) <;>
    simp only [ofWord?, htrue, hfalse, isMoment_signed h, hint, if_false, Bool.false_eq_true]

/-- A numeral has no prefix of another base. -/
theorem integer?_signed (h : n.Spells d) :
    integer? (signed n d) = (wholeDigits? n.chars).bind fun ds =>
      Word.ofInt? (if d.negative then -(Text.ofDigits ds : Int) else Text.ofDigits ds) := by
  have hnot {c : Char} (hdigit : isDigit c = false) (hmark : c ∉ ['-', '.', 'e'])
      {cs : List Char} : signed n d ≠ '0' :: c :: cs := by
    intro heq
    apply not_mem_signed h hdigit hmark
    rw [heq]
    exact List.mem_cons_of_mem _ List.mem_cons_self
  have hsign := takeSign_signed h
  unfold integer?
  split
  · next heq => exact absurd heq (hnot (by decide) (by decide))
  · next heq => exact absurd heq (hnot (by decide) (by decide))
  · next heq => exact absurd heq (hnot (by decide) (by decide))
  · rw [hsign]
    rfl

/-- An integer is read back. -/
theorem ofWord?_intText (w : Int64) :
    ofWord? (Text.intText w.toInt).toList = some (.integer w) := by
  have h := Json.spells_wordNumeral w.toInt
  have htext : (Text.intText w.toInt).toList =
      signed (Json.wordNumeral w.toInt) ⟨decide (w.toInt < 0), w.toInt.natAbs, 0⟩ := by
    simpa [signed] using Json.toList_intText_append w.toInt []
  have hchars : (Json.wordNumeral w.toInt).chars = Text.digits w.toInt.natAbs := by
    simp [Json.wordNumeral, Decimal.Numeral.chars, Decimal.Numeral.fractionChars,
      Decimal.Numeral.exponentChars]
  have hwhole := wholeDigits?_digits (fun _ hc => Text.isDigit_of_mem_digits hc)
    (Text.digits_ne_nil w.toInt.natAbs) Text.digits_eq_zero_of_head
  have hvalue : (if decide (w.toInt < 0) = true then -(w.toInt.natAbs : Int)
      else w.toInt.natAbs) = w.toInt := by
    by_cases hneg : w.toInt < 0
    · rw [if_pos (decide_eq_true hneg)]
      omega
    · rw [if_neg (by simpa using hneg)]
      omega
  rw [htext, ofWord?_signed h, integer?_signed h, hchars, hwhole]
  simp only [Option.bind_some, Text.ofDigits_digits, hvalue, Word.ofInt?_toInt]

/-- The mantissa of a numeral ends at the mark of the exponent. -/
theorem takeWhile_mantissa (h : n.Spells d) :
    n.chars.takeWhile (fun c => c ≠ 'e' && c ≠ 'E') =
      n.whole ++ Decimal.Numeral.fractionChars n.part := by
  rw [Decimal.Numeral.chars, ← List.append_assoc]
  apply (Text.takeWhile_append_eq _ _).1
  · intro c hc
    have hc : isDigit c = true ∨ c = '.' := by
      rcases List.mem_append.mp hc with hc | hc
      · exact .inl (h.isDigit_of_mem_whole c hc)
      · exact Decimal.Numeral.isDigit_of_mem_fractionChars h.isDigit_of_mem_part hc
    have hlower : c ≠ 'e' := by
      rintro rfl
      revert hc
      decide
    have hupper : c ≠ 'E' := by
      rintro rfl
      revert hc
      decide
    simp [hlower, hupper]
  · intro c hc
    cases hexponent : n.exponent with
    | none =>
      rw [hexponent] at hc
      cases hc
    | some e =>
      rw [hexponent] at hc
      cases hc
      rfl

/-- The digits before the point end at the point. -/
theorem takeWhile_whole (h : n.Spells d) :
    (n.whole ++ Decimal.Numeral.fractionChars n.part).takeWhile (· ≠ '.') = n.whole := by
  apply (Text.takeWhile_append_eq _ _).1
  · intro c hc
    apply decide_eq_true
    rintro rfl
    cases h.isDigit_of_mem_whole '.' hc
  · intro c hc
    cases hpart : n.part with
    | nil =>
      rw [hpart] at hc
      cases hc
    | cons p part =>
      rw [hpart] at hc
      cases hc
      rfl

theorem fraction?_fractionChars (h : n.Spells d) :
    fraction? (Decimal.Numeral.fractionChars n.part) = some n.part := by
  have hdigits := h.isDigit_of_mem_part
  cases hpart : n.part with
  | nil => rfl
  | cons c part =>
    rw [hpart] at hdigits
    exact plainDigits?_digits hdigits (List.cons_ne_nil c part)

theorem power?_exponentChars (hdetail : n.part ≠ [] ∨ n.exponent ≠ none) :
    power? n.part (Decimal.Numeral.exponentChars n.exponent) = some (n.exponent.getD 0) := by
  cases hexponent : n.exponent with
  | none =>
    have hne : n.part ≠ [] := hdetail.resolve_right fun h => h hexponent
    simp [Decimal.Numeral.exponentChars, power?, hne]
  | some e => exact exponent?_intText e

/-- The parts of a numeral are found again. -/
theorem decimal?_chars (h : n.Spells d) (hdetail : n.part ≠ [] ∨ n.exponent ≠ none)
    (negative : Bool) : decimal? negative n.chars = some (n.decimal negative) := by
  have hexponent : n.chars.drop (n.whole ++ Decimal.Numeral.fractionChars n.part).length =
      Decimal.Numeral.exponentChars n.exponent := by
    rw [Decimal.Numeral.chars, ← List.append_assoc, List.drop_left]
  rw [decimal?]
  simp only [takeWhile_mantissa h, takeWhile_whole h, hexponent, List.drop_left,
    wholeDigits?_digits h.isDigit_of_mem_whole h.ne_nil h.proper, fraction?_fractionChars h,
    power?_exponentChars hdetail, Option.bind_eq_bind, Option.bind_some]
  rfl

theorem integer?_signed_eq_none (h : n.Spells d) (hdetail : n.part ≠ [] ∨ n.exponent ≠ none) :
    integer? (signed n d) = none := by
  have hmark : ∃ c ∈ n.chars, ¬ (isDigit c = true ∨ c = '_') := by
    obtain ⟨whole, part, exponent⟩ := n
    cases exponent with
    | some e =>
      exact ⟨'e', by simp [Decimal.Numeral.chars, Decimal.Numeral.exponentChars], by decide⟩
    | none =>
      cases part with
      | nil => exact absurd hdetail (by simp)
      | cons c part =>
        exact ⟨'.', by simp [Decimal.Numeral.chars, Decimal.Numeral.fractionChars], by decide⟩
  have hplain : plainDigits? isDigit n.chars = none := by
    obtain ⟨c, hc, hnot⟩ := hmark
    exact if_neg fun hseparate => hnot (of_underscoresSeparate hseparate c hc)
  rw [integer?_signed h, wholeDigits?, hplain]
  rfl

end numerals

/-! ## Words -/

/-- The word of a double-precision number. -/
def floatWord (x : Binary64) : String :=
  if x.isFinite then x.detailedText
  else (if x.negative then "-" else "") ++ if x.isNaN then "nan" else "inf"

theorem ofWord?_finite {x : Binary64} (hx : x.isFinite = true) :
    ofWord? x.detailedText.toList = some (.float x) := by
  obtain ⟨n, htext, hn, hdetail⟩ := Binary64.exists_detailed_numeral hx
  obtain ⟨c, cs, hcs, hc⟩ := hn.exists_chars_eq_cons
  have hinf : n.chars ≠ "inf".toList := by
    rw [hcs]
    intro heq
    cases heq
    cases hc
  have hnan : n.chars ≠ "nan".toList := by
    rw [hcs]
    intro heq
    cases heq
    cases hc
  have hround : rounded? (n.decimal x.shortest.negative) = some x := by
    have hne : x ≠ .infinity false := by
      rintro rfl
      revert hx
      decide
    rw [rounded?, hn.toBinary64_eq, Binary64.toBinary64_shortest hx, if_neg hne]
  have hsigned : x.detailedText.toList = signed n x.shortest := htext
  rw [hsigned, ofWord?_signed hn, integer?_signed_eq_none hn hdetail, float?_eq,
    takeSign_signed hn]
  simp only [hinf, hnan, if_false, decimal?_chars hn hdetail, Option.bind_some, hround,
    Option.map_some]

/-- A number is read back. -/
theorem ofWord?_floatWord {x : Binary64} (hx : x.IsRead) :
    ofWord? (floatWord x).toList = some (.float x) := by
  rcases hx with hx | ⟨negative, rfl | rfl⟩
  · rw [floatWord, if_pos hx]
    exact ofWord?_finite hx
  · cases negative <;> rfl
  · cases negative <;> rfl

theorem isWordChar_of_mem_floatWord {x : Binary64} (hx : x.IsRead) :
    ∀ c ∈ (floatWord x).toList, isWordChar c = true := by
  rcases hx with hx | ⟨negative, rfl | rfl⟩
  · obtain ⟨n, htext, hn, -⟩ := Binary64.exists_detailed_numeral hx
    rw [floatWord, if_pos hx, htext]
    exact isWordChar_of_mem_signed hn
  · cases negative <;> exact List.all_eq_true.mp (by decide)
  · cases negative <;> exact List.all_eq_true.mp (by decide)

end Toml
end LambdaScript
