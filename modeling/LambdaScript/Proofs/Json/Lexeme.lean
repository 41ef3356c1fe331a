import LambdaScript.Json.Read
import LambdaScript.Json.Write
import LambdaScript.Proofs.Number.Layout

/-! # Strings and numbers of documents

What is written for a string or a number is read back, whatever follows a string, and in front of
what cannot go on with the digits of a number. An integer is read as an integer if it is a signed or
unsigned 64-bit word, and a finite number as itself, since its text has a fraction or an exponent.
-/

namespace LambdaScript.Json

/-! ## Strings -/

theorem hexValue?_digitChar {d : Nat} (h : d < 16) : hexValue? (Nat.digitChar d) = some d := by
  have hall : ∀ d < 16, hexValue? (Nat.digitChar d) = some d := by decide
  exact hall d h

/-- The two digits of a code are read back behind two zeros. -/
theorem ofHex?_code {c : Char} (h : c.toNat < 0x100) :
    ofHex? ['0', '0', hexDigit (c.toNat / 16), hexDigit c.toNat] = some c.toNat := by
  have hzero : hexValue? '0' = some 0 := rfl
  have hhigh : hexValue? (hexDigit (c.toNat / 16)) = some (c.toNat / 16) := by
    rw [hexDigit, Nat.mod_eq_of_lt (by omega)]
    exact hexValue?_digitChar (by omega)
  have hlow : hexValue? (hexDigit c.toNat) = some (c.toNat % 16) :=
    hexValue?_digitChar (Nat.mod_lt _ (by decide))
  simp [ofHex?, hzero, hhigh, hlow, Nat.div_add_mod]

theorem escapedCode?_control {c : Char} (h : c.toNat < 0x20) (rest : List Char) :
    escapedCode? ('0' :: '0' :: hexDigit (c.toNat / 16) :: hexDigit c.toNat :: rest) =
      some (c, rest) := by
  have hunit : unit? ('0' :: '0' :: hexDigit (c.toNat / 16) :: hexDigit c.toNat :: rest) =
      some (c.toNat, rest) := by
    simp [unit?, ofHex?_code (Nat.lt_trans h (by decide))]
  simp [escapedCode?, hunit, (by omega : c.toNat < 0xD800)]

/-- A written character is read back. -/
theorem stringRest?_writeChar (fuel : Nat) (read : List Char) (c : Char) (rest : List Char) :
    stringRest? (fuel + 1) read (writeChar c ++ rest) = stringRest? fuel (c :: read) rest := by
  by_cases hmark : c = '"' ∨ c = '\\'
  · rcases hmark with rfl | rfl
    · simp [writeChar, stringRest?, escape?]
    · simp [writeChar, stringRest?, escape?]
  · rw [writeChar, if_neg hmark]
    obtain ⟨hquote, hslash⟩ := not_or.mp hmark
    by_cases hcontrol : c.toNat < 0x20
    · rw [if_pos hcontrol]
      simp [stringRest?, escape?, escapedCode?_control hcontrol]
    · rw [if_neg hcontrol]
      simp [stringRest?, hquote, hslash, hcontrol]

theorem stringRest?_flatMap {fuel : Nat} {cs : List Char} (hfuel : cs.length < fuel)
    (read rest : List Char) :
    stringRest? fuel read (cs.flatMap writeChar ++ '"' :: rest) =
      some (String.ofList (read.reverse ++ cs), rest) := by
  induction cs generalizing fuel read with
  | nil =>
    obtain ⟨fuel, rfl⟩ := Nat.exists_eq_succ_of_ne_zero (Nat.ne_of_gt hfuel)
    simp [stringRest?]
  | cons c cs ih =>
    obtain ⟨fuel, rfl⟩ := Nat.exists_eq_succ_of_ne_zero (Nat.ne_of_gt (Nat.zero_lt_of_lt hfuel))
    rw [List.flatMap_cons, List.append_assoc, stringRest?_writeChar,
      ih (by simpa using hfuel)]
    simp

theorem toList_writeString (s : String) :
    (writeString s).toList = '"' :: (s.toList.flatMap writeChar ++ ['"']) := by
  simp [writeString]

theorem length_le_flatMap_writeChar (cs : List Char) :
    cs.length ≤ (cs.flatMap writeChar).length := by
  induction cs with
  | nil => exact Nat.le_refl 0
  | cons c cs ih =>
    have hpos : 0 < (writeChar c).length := by
      rw [writeChar]
      split
      · exact Nat.succ_pos _
      · split <;> exact Nat.succ_pos _
    rw [List.flatMap_cons, List.length_append, List.length_cons]
    omega

/-- A written string is read back. -/
theorem string?_writeString (s : String) (rest : List Char) :
    string? ((writeString s).toList ++ rest) = some (s, rest) := by
  have hlength := length_le_flatMap_writeChar s.toList
  rw [toList_writeString, List.cons_append, List.append_assoc, List.singleton_append, string?,
    stringRest?_flatMap (by rw [List.length_append]; omega)]
  simp

/-! ## Numbers -/

/-- What stands behind a number: nothing that the number could go on with. -/
def Ends (rest : List Char) : Prop :=
  ∀ c, rest.head? = some c → Text.isDigit c = false ∧ c ≠ '.' ∧ c ≠ 'e' ∧ c ≠ 'E'

theorem whole?_append {whole rest : List Char} (digits : ∀ c ∈ whole, Text.isDigit c = true)
    (ne_nil : whole ≠ []) (proper : whole.head? = some '0' → whole = ['0'])
    (hrest : ∀ c, rest.head? = some c → Text.isDigit c = false) :
    whole? (whole ++ rest) = some (whole, rest) := by
  obtain ⟨htake, -⟩ := Text.takeWhile_append_eq digits hrest
  rw [whole?, htake]
  split
  · exact absurd rfl ne_nil
  · next ds =>
    rw [proper rfl]
    rfl
  · rw [List.drop_left]

theorem part?_append {part rest : List Char} (digits : ∀ c ∈ part, Text.isDigit c = true)
    (hrest : ∀ c, rest.head? = some c → Text.isDigit c = false ∧ c ≠ '.') :
    part? (Decimal.Numeral.fractionChars part ++ rest) = some (part, rest) := by
  cases part with
  | nil =>
    rw [Decimal.Numeral.fractionChars, List.isEmpty_nil, if_pos rfl, List.nil_append]
    unfold part?
    split
    · next cs => exact absurd rfl (hrest '.' rfl).2
    · rfl
  | cons c part =>
    obtain ⟨htake, -⟩ := Text.takeWhile_append_eq digits fun d hd => (hrest d hd).1
    simp only [Decimal.Numeral.fractionChars, List.isEmpty_cons, Bool.false_eq_true, if_false,
      List.cons_append] at htake ⊢
    simp [part?, htake]

theorem takeSign_of_isDigit {c : Char} (h : Text.isDigit c = true) (cs : List Char) :
    takeSign (c :: cs) = (false, c :: cs) := by
  unfold takeSign
  split <;> simp_all [Text.isDigit]

theorem exponent?_append (e : Option Int) {rest : List Char} (hrest : Ends rest) :
    exponent? (Decimal.Numeral.exponentChars e ++ rest) = some (e, rest) := by
  cases e with
  | none =>
    cases rest with
    | nil => rfl
    | cons c rest =>
      obtain ⟨-, -, hlower, hupper⟩ := hrest c rfl
      simp [Decimal.Numeral.exponentChars, exponent?, hlower, hupper]
  | some e =>
    have hdigits (n : Nat) : (Text.digits n ++ rest).takeWhile Text.isDigit = Text.digits n :=
      (Text.takeWhile_append_eq (fun _ hc => Text.isDigit_of_mem_digits hc)
        fun c hc => (hrest c hc).1).1
    by_cases he : e < 0
    · simp [Decimal.Numeral.exponentChars, Text.toList_intText_of_neg he, exponent?, takeSign,
        hdigits, Text.digits_ne_nil, Text.ofDigits_digits, abs_of_neg he]
    · obtain ⟨c, cs, hcs, hc⟩ := Text.exists_digits_eq_cons e.natAbs
      have hsign := takeSign_of_isDigit hc (cs ++ rest)
      have hdigits := hdigits e.natAbs
      rw [← List.cons_append, ← hcs] at hsign
      simp [Decimal.Numeral.exponentChars, Text.toList_intText (Int.not_lt.mp he), exponent?, hsign,
        hdigits, Text.digits_ne_nil, Text.ofDigits_digits, abs_of_nonneg (Int.not_lt.mp he)]

theorem head_exponentChars {rest : List Char} (hrest : Ends rest) (e : Option Int) {c : Char}
    (h : (Decimal.Numeral.exponentChars e ++ rest).head? = some c) :
    Text.isDigit c = false ∧ c ≠ '.' := by
  cases e with
  | none => exact ⟨(hrest c h).1, (hrest c h).2.1⟩
  | some e =>
    cases h
    decide

theorem head_fractionChars {rest : List Char} (hrest : Ends rest) (part : List Char)
    (e : Option Int) {c : Char} (h : (Decimal.Numeral.fractionChars part ++
      (Decimal.Numeral.exponentChars e ++ rest)).head? = some c) : Text.isDigit c = false := by
  cases part with
  | nil => exact (head_exponentChars hrest e h).1
  | cons d part =>
    cases h
    rfl

/-- Reads a number behind its sign. -/
def unsigned? (negative : Bool) (cs : List Char) : Option (Json × List Char) := do
  let (whole, cs) ← whole? cs
  let (part, cs) ← part? cs
  let (exponent, cs) ← exponent? cs
  return (← ofParts? negative whole part exponent, cs)

theorem number?_negative (cs : List Char) : number? ('-' :: cs) = unsigned? true cs := rfl

theorem number?_of_isDigit {c : Char} (h : Text.isDigit c = true) (cs : List Char) :
    number? (c :: cs) = unsigned? false (c :: cs) := by
  unfold number?
  split
  next negative cs' hsign =>
  split at hsign
  · simp_all [Text.isDigit]
  · cases hsign
    rfl

/-- The parts of a numeral are found again. -/
theorem number?_append {n : Decimal.Numeral} {d : Decimal} (h : n.Spells d) {rest : List Char}
    (hrest : Ends rest) :
    number? (d.signText.toList ++ (n.chars ++ rest)) =
      (ofParts? d.negative n.whole n.part n.exponent).map (·, rest) := by
  have hsign : number? (d.signText.toList ++ (n.chars ++ rest)) =
      unsigned? d.negative (n.chars ++ rest) := by
    obtain ⟨c, cs, hcs, hc⟩ := h.exists_chars_eq_cons
    rw [hcs, Decimal.signText]
    cases d.negative with
    | true => exact number?_negative _
    | false => exact number?_of_isDigit hc _
  have hwhole := whole?_append h.isDigit_of_mem_whole h.ne_nil h.proper
    fun c hc => head_fractionChars hrest n.part n.exponent hc
  have hpart := part?_append h.isDigit_of_mem_part
    fun c hc => head_exponentChars hrest n.exponent hc
  have hexponent := exponent?_append n.exponent hrest
  rw [hsign]
  simp only [unsigned?, Decimal.Numeral.chars, List.append_assoc, hwhole, hpart, hexponent,
    Option.bind_eq_bind, Option.bind_some]
  cases ofParts? d.negative n.whole n.part n.exponent <;> rfl

/-- The digits of a word. -/
def wordNumeral (n : Int) : Decimal.Numeral := ⟨Text.digits n.natAbs, [], none⟩

theorem spells_wordNumeral (n : Int) :
    (wordNumeral n).Spells ⟨decide (n < 0), n.natAbs, 0⟩ := by
  constructor
  · intro c hc
    exact Text.isDigit_of_mem_digits (by simpa [wordNumeral] using hc)
  · exact Text.digits_ne_nil _
  · exact Text.digits_eq_zero_of_head
  · simp [wordNumeral, Decimal.Numeral.decimal, Decimal.value, Text.ofDigits_digits]

theorem toList_intText_append (n : Int) (rest : List Char) :
    (Text.intText n).toList ++ rest =
      (Decimal.signText ⟨decide (n < 0), n.natAbs, 0⟩).toList ++
        ((wordNumeral n).chars ++ rest) := by
  by_cases hn : n < 0
  · simp [Text.toList_intText_of_neg hn, Decimal.signText, hn, wordNumeral, Decimal.Numeral.chars,
      Decimal.Numeral.fractionChars, Decimal.Numeral.exponentChars]
  · simp [Text.toList_intText (Int.not_lt.mp hn), Decimal.signText, hn, wordNumeral,
      Decimal.Numeral.chars, Decimal.Numeral.fractionChars, Decimal.Numeral.exponentChars]

/-- A word is read back as an integer. -/
theorem number?_int {n : Int} (least : -(pow2 63 : Int) ≤ n) (greatest : n < pow2 64)
    {rest : List Char} (hrest : Ends rest) :
    number? ((Text.intText n).toList ++ rest) = some (int n, rest) := by
  rw [toList_intText_append, number?_append (spells_wordNumeral n) hrest]
  by_cases hn : n < 0
  · have hword : 0 < n.natAbs ∧ n.natAbs ≤ pow2 63 := by omega
    simp [ofParts?, wordNumeral, Text.ofDigits_digits, hn, hword, abs_of_neg hn]
  · have hword : n.natAbs < pow2 64 := by omega
    simp [ofParts?, wordNumeral, Text.ofDigits_digits, hn, hword,
      abs_of_nonneg (Int.not_lt.mp hn)]

/-- A finite number is read back: its text has a fraction or an exponent. -/
theorem number?_float {x : Binary64} (hx : x.isFinite = true) {rest : List Char}
    (hrest : Ends rest) : number? (x.detailedText.toList ++ rest) = some (float x, rest) := by
  obtain ⟨n, htext, hn, hdetail⟩ := Binary64.exists_detailed_numeral hx
  have hread : (n.decimal x.shortest.negative).toBinary64 = x := by
    rw [hn.toBinary64_eq, Binary64.toBinary64_shortest hx]
  have hword : ¬ (n.part.isEmpty = true ∧ n.exponent.isNone = true) := by
    simpa [← not_or, imp_iff_not_or] using hdetail
  rw [Decimal.Numeral.decimal] at hread
  rw [htext, List.append_assoc, number?_append hn hrest]
  simp only [ofParts?, ← and_assoc, hword, false_and, if_false, hread, hx, if_true, Option.map_some]

end LambdaScript.Json
