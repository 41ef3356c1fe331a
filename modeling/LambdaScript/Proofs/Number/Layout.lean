import LambdaScript.Number.Layout
import LambdaScript.Number.Read
import LambdaScript.Proofs.Number.Shortest

/-! # Numerals of decimals

Both layouts spell the decimal that they write: digits with a point between them and a power of ten,
which together have the value of the decimal. Whoever reads a numeral by its parts therefore reads
the decimal, and since the shortest decimal of a finite number is read back, so is the number from
its text.
-/

namespace LambdaScript

theorem Text.ofDigits_append_zeros (cs : List Char) (k : ℕ) :
    ofDigits (cs ++ List.replicate k '0') = ofDigits cs * 10 ^ k := by
  change Nat.ofDigitChars 10 (cs ++ List.replicate k '0') 0 = Nat.ofDigitChars 10 cs 0 * 10 ^ k
  rw [Nat.ofDigitChars_append, Nat.ofDigitChars_replicate_zero, Nat.mul_comm]

theorem Text.ofDigits_zeros_append (cs : List Char) (k : ℕ) :
    ofDigits (List.replicate k '0' ++ cs) = ofDigits cs := by
  change Nat.ofDigitChars 10 (List.replicate k '0' ++ cs) 0 = Nat.ofDigitChars 10 cs 0
  rw [Nat.ofDigitChars_append, Nat.ofDigitChars_replicate_zero, Nat.mul_zero]

namespace Decimal
open Text

/-- Digits before and behind a point, and the power of ten that they count. -/
structure Numeral where
  whole : List Char
  part : List Char
  exponent : Option ℤ

namespace Numeral

/-- A point and the digits behind it, if there are any. -/
def fractionChars (part : List Char) : List Char := if part.isEmpty then [] else '.' :: part

def exponentChars : Option ℤ → List Char
  | none => []
  | some e => 'e' :: (intText e).toList

theorem isDigit_of_mem_fractionChars {part : List Char} (h : ∀ c ∈ part, isDigit c = true)
    {c : Char} (hc : c ∈ fractionChars part) : isDigit c = true ∨ c = '.' := by
  rw [fractionChars] at hc
  split at hc
  · cases hc
  · exact (List.mem_cons.mp hc).symm.imp_left (h c)

/-- The text of a numeral behind its sign. -/
def chars (n : Numeral) : List Char :=
  n.whole ++ (fractionChars n.part ++ exponentChars n.exponent)

/-- The decimal that is read from the parts of a numeral. -/
def decimal (n : Numeral) (negative : Bool) : Decimal :=
  ⟨negative, ofDigits (n.whole ++ n.part), n.exponent.getD 0 - n.part.length⟩

/-- A numeral is made of digits, at least one of them before the point, where no zero stands in
front of others, and it has the value of a decimal. -/
structure Spells (n : Numeral) (d : Decimal) : Prop where
  digits : ∀ c ∈ n.whole ++ n.part, isDigit c = true
  ne_nil : n.whole ≠ []
  proper : n.whole.head? = some '0' → n.whole = ['0']
  value : (n.decimal d.negative).value = d.value

namespace Spells
variable {n : Numeral} {d : Decimal}

theorem toBinary64_eq (h : n.Spells d) : (n.decimal d.negative).toBinary64 = d.toBinary64 :=
  toBinary64_congr rfl h.value

theorem isDigit_of_mem_whole (h : n.Spells d) : ∀ c ∈ n.whole, isDigit c = true :=
  fun c hc => h.digits c (List.mem_append_left _ hc)

theorem isDigit_of_mem_part (h : n.Spells d) : ∀ c ∈ n.part, isDigit c = true :=
  fun c hc => h.digits c (List.mem_append_right _ hc)

theorem exists_chars_eq_cons (h : n.Spells d) :
    ∃ c cs, n.chars = c :: cs ∧ isDigit c = true := by
  obtain ⟨c, cs, hwhole⟩ := List.exists_cons_of_ne_nil h.ne_nil
  refine ⟨c, _, by rw [chars, hwhole, List.cons_append], ?_⟩
  exact h.isDigit_of_mem_whole c (by simp [hwhole])

/-- The text of a number consists of digits, signs, the point and the mark of the exponent. -/
theorem mem_text (h : n.Spells d) {c : Char} (hc : c ∈ d.signText.toList ++ n.chars) :
    isDigit c = true ∨ c ∈ ['-', '.', 'e'] := by
  simp only [chars, List.mem_append] at hc
  rcases hc with hc | hc | hc | hc
  · rw [Decimal.signText] at hc
    split at hc
    · cases List.mem_singleton.mp hc
      exact .inr List.mem_cons_self
    · cases hc
  · exact .inl (h.isDigit_of_mem_whole c hc)
  · exact (isDigit_of_mem_fractionChars h.isDigit_of_mem_part hc).imp_right (by simp +contextual)
  · cases hexponent : n.exponent with
    | none =>
      rw [hexponent] at hc
      cases hc
    | some e =>
      rw [hexponent] at hc
      rcases List.mem_cons.mp hc with rfl | hc
      · simp
      · exact (mem_intText hc).imp_right (by simp +contextual)

end Spells

end Numeral

/-- The parts of the positional layout, with at least `least` digits behind the point. -/
def positionalNumeral (least : ℕ) (d : Decimal) : Numeral :=
  let (whole, part) := d.positionalParts
  ⟨whole, part ++ List.replicate (least - part.length) '0', none⟩

/-- The parts of the layout with an exponent. -/
def scientificNumeral (d : Decimal) : Numeral :=
  ⟨(Text.digits d.units).take 1, (Text.digits d.units).drop 1,
    some (d.exponent + ((Text.digits d.units).drop 1).length)⟩

theorem toList_fraction (part : List Char) :
    (if part.isEmpty then "" else "." ++ String.ofList part).toList =
      Numeral.fractionChars part := by
  rw [Numeral.fractionChars]
  split <;> simp

theorem toList_positional (least : ℕ) (d : Decimal) :
    (d.positional least).toList = d.signText.toList ++ (d.positionalNumeral least).chars := by
  simp only [positional, positionalNumeral, Numeral.chars, Numeral.exponentChars]
  rw [String.toList_append, toList_fraction]
  simp [List.append_assoc]

theorem toList_scientific (d : Decimal) :
    d.scientific.toList = d.signText.toList ++ d.scientificNumeral.chars := by
  simp only [scientific, scientificNumeral, Numeral.chars, Numeral.exponentChars]
  rw [String.toList_append, String.toList_append, String.toList_append, toList_fraction]
  simp [List.append_assoc]

theorem spells_scientific (d : Decimal) : d.scientificNumeral.Spells d := by
  obtain ⟨c, cs, hcs, -⟩ := exists_digits_eq_cons d.units
  constructor
  · rw [scientificNumeral, List.take_append_drop]
    exact fun c hc => isDigit_of_mem_digits hc
  · simp [scientificNumeral, hcs]
  · simp [scientificNumeral, hcs]
  · simp only [Numeral.decimal, scientificNumeral, value, List.take_append_drop, ofDigits_digits,
      Option.getD_some, add_sub_cancel_right]

/-- All digits of the positional layout: zeros behind the units, and zeros in front if there is no
digit before the point. -/
def padded (d : Decimal) : List Char :=
  let whole := Text.digits d.units ++ List.replicate d.exponent.toNat '0'
  List.replicate ((-d.exponent).toNat + 1 - whole.length) '0' ++ whole

theorem positionalParts_eq (d : Decimal) :
    d.positionalParts = (d.padded.take (d.padded.length - (-d.exponent).toNat),
      d.padded.drop (d.padded.length - (-d.exponent).toNat)) := rfl

theorem isDigit_of_mem_padded {d : Decimal} {c : Char} (h : c ∈ d.padded) : isDigit c = true := by
  simp only [padded, List.mem_append, List.mem_replicate] at h
  rcases h with ⟨-, rfl⟩ | h | ⟨-, rfl⟩
  · rfl
  · exact isDigit_of_mem_digits h
  · rfl

theorem ofDigits_padded (d : Decimal) : ofDigits d.padded = d.units * 10 ^ d.exponent.toNat := by
  rw [padded, ofDigits_zeros_append, ofDigits_append_zeros, ofDigits_digits]

theorem places_lt_length_padded (d : Decimal) : (-d.exponent).toNat < d.padded.length := by
  simp only [padded, List.length_append, List.length_replicate]
  omega

/-- A zero that was put in front is the only digit before the point. -/
theorem head_padded {d : Decimal} (zero : d.units = 0 → d.exponent ≤ 0)
    (h : d.padded.head? = some '0') : d.padded.length = (-d.exponent).toNat + 1 := by
  obtain ⟨c, cs, hcs, -⟩ := exists_digits_eq_cons d.units
  by_cases hlong : (-d.exponent).toNat + 1 ≤
      (Text.digits d.units ++ List.replicate d.exponent.toNat '0').length
  · have hhead : (Text.digits d.units).head? = some '0' := by
      rw [padded, Nat.sub_eq_zero_of_le hlong] at h
      simpa [hcs] using h
    have hunits : d.units = 0 := by
      by_contra hne
      exact head_digits_ne_zero hne hhead
    have hexponent := zero hunits
    simp only [padded, digits_eq_zero_of_head hhead, List.length_append, List.length_replicate,
      List.length_singleton]
    omega
  · simp only [padded, List.length_append, List.length_replicate] at hlong ⊢
    omega

/-- Zeros behind the last digit do not change the value. -/
theorem value_zeros (d : Decimal) (k : ℕ) :
    Decimal.value ⟨d.negative, d.units * 10 ^ k, d.exponent - k⟩ = d.value := by
  simp only [value]
  rw [zpow_sub₀ (by norm_num), zpow_natCast]
  push_cast
  field_simp

theorem spells_positional (least : ℕ) {d : Decimal} (zero : d.units = 0 → d.exponent ≤ 0) :
    (d.positionalNumeral least).Spells d := by
  have hlength := places_lt_length_padded d
  simp only [positionalNumeral, positionalParts_eq]
  generalize hk : least - (d.padded.drop (d.padded.length - (-d.exponent).toNat)).length = k
  constructor
  · intro c hc
    rw [← List.append_assoc, List.take_append_drop, List.mem_append] at hc
    rcases hc with hc | hc
    · exact isDigit_of_mem_padded hc
    · rw [(List.mem_replicate.mp hc).2]
      rfl
  · apply List.ne_nil_of_length_pos
    rw [List.length_take]
    omega
  · intro hhead
    have hpadded : d.padded.head? = some '0' := by
      rwa [List.head?_take, if_neg (by omega)] at hhead
    have hone : d.padded.length - (-d.exponent).toNat = 1 := by
      have hhead := head_padded zero hpadded
      omega
    obtain ⟨cs, hcs⟩ := List.head?_eq_some_iff.mp hpadded
    rw [hone, hcs]
    rfl
  · have hplaces : (d.padded.drop (d.padded.length - (-d.exponent).toNat)).length =
        (-d.exponent).toNat := by
      rw [List.length_drop]
      omega
    simp only [Numeral.decimal]
    rw [← List.append_assoc, List.take_append_drop, ofDigits_append_zeros, ofDigits_padded,
      List.length_append, List.length_replicate, hplaces]
    rw [← value_zeros d (d.exponent.toNat + k)]
    congr 2
    · ring
    · simp only [Option.getD_none]
      omega

theorem readExponent?_exponentChars (e : Option ℤ) :
    readExponent? (Numeral.exponentChars e) = some (e.getD 0) := by
  cases e with
  | none => rfl
  | some e => simpa [Numeral.exponentChars, readExponent?] using readInt?_intText e

theorem isDigit_head_exponentChars {e : Option ℤ} {c : Char}
    (h : (Numeral.exponentChars e).head? = some c) : isDigit c = false := by
  cases e with
  | none => cases h
  | some e =>
    cases h
    rfl

theorem isDigit_head_fractionChars {part : List Char} {e : Option ℤ} {c : Char}
    (h : (Numeral.fractionChars part ++ Numeral.exponentChars e).head? = some c) :
    isDigit c = false := by
  cases part with
  | nil => exact isDigit_head_exponentChars h
  | cons d part =>
    cases h
    rfl

/-- The parts of a numeral are found again. -/
theorem readUnsigned?_chars {n : Numeral} {d : Decimal} (h : n.Spells d) (negative : Bool) :
    readUnsigned? negative n.chars = some (n.decimal negative) := by
  obtain ⟨whole, part, exponent⟩ := n
  have hsome := h.ne_nil
  obtain ⟨htake, hdrop⟩ := takeWhile_append_eq h.isDigit_of_mem_whole
    fun c (hc : (Numeral.fractionChars part ++ Numeral.exponentChars exponent).head? = some c) =>
      isDigit_head_fractionChars hc
  simp only [readUnsigned?, Numeral.chars, htake, hdrop]
  cases part with
  | nil =>
    have hread := readExponent?_exponentChars exponent
    cases exponent <;>
      simp [Numeral.fractionChars, Numeral.exponentChars, Numeral.decimal, hsome] at hread ⊢ <;>
      simp [hread]
  | cons c part =>
    obtain ⟨htake, hdrop⟩ := takeWhile_append_eq h.isDigit_of_mem_part
      fun c (hc : (Numeral.exponentChars exponent).head? = some c) => isDigit_head_exponentChars hc
    simp only [Numeral.fractionChars, List.isEmpty_cons, if_false, Bool.false_eq_true,
      List.cons_append] at htake hdrop ⊢
    simp [htake, hdrop, readExponent?_exponentChars, Numeral.decimal]

end Decimal

namespace Binary64
variable {x : Binary64}

theorem units_shortest_ne_zero (hx : x.isFinite = true) (hz : x.isZero = false) :
    x.shortest.units ≠ 0 := by
  intro hunits
  have hzero (negative : Bool) : (ofFields negative 0).isZero = true := by
    cases negative <;> decide
  have hread := congrArg isZero (toBinary64_shortest hx)
  rw [Decimal.toBinary64, if_pos (.inl hunits), hzero, hz] at hread
  cases hread

theorem exponent_shortest_le (hx : x.isFinite = true) (h : x.shortest.units = 0) :
    x.shortest.exponent ≤ 0 := by
  cases hz : x.isZero with
  | true => simp [shortest, hz]
  | false => exact absurd h (units_shortest_ne_zero hx hz)

/-- The detailed text of a finite number is a numeral with a fraction or an exponent. -/
theorem exists_detailed_numeral (hx : x.isFinite = true) :
    ∃ n : Decimal.Numeral, x.detailedText.toList = x.shortest.signText.toList ++ n.chars ∧
      n.Spells x.shortest ∧ (n.part ≠ [] ∨ n.exponent ≠ none) := by
  simp only [detailedText, hx, if_true]
  split
  · refine ⟨_, Decimal.toList_positional 1 _,
      Decimal.spells_positional 1 (exponent_shortest_le hx), .inl ?_⟩
    apply List.ne_nil_of_length_pos
    simp only [Decimal.positionalNumeral, List.length_append, List.length_replicate]
    omega
  · exact ⟨_, Decimal.toList_scientific _, Decimal.spells_scientific _,
      .inr (Option.some_ne_none _)⟩

theorem takeSign_signText {d : Decimal} {cs : List Char}
    (h : ∀ c, cs.head? = some c → Text.isDigit c = true) :
    takeSign (d.signText.toList ++ cs) = (d.negative, cs) := by
  rw [Decimal.signText]
  cases d.negative with
  | true => rfl
  | false =>
    cases cs with
    | nil => rfl
    | cons c cs =>
      have hc := h c rfl
      simp only [Bool.false_eq_true, if_false, String.toList_empty, List.nil_append]
      unfold takeSign
      split <;> simp_all [Text.isDigit]

theorem equalIgnoringCase_of_isDigit {c w : Char} {cs ws : List Char} {word : String}
    (hc : Text.isDigit c = true) (hword : word.toList = w :: ws)
    (hw : Text.isDigit w.toLower = false) : equalIgnoringCase (c :: cs) word.toList = false := by
  have hlower : c.toLower = c := by
    simp only [Text.isDigit, Bool.and_eq_true, decide_eq_true_eq, Char.le_def,
      UInt32.le_iff_toNat_le] at hc
    have hhigh : c.val.toNat ≤ 57 := hc.2
    apply dif_neg
    rintro ⟨hlow, -⟩
    have hlow : 65 ≤ c.val.toNat := hlow
    omega
  have hne : c ≠ w.toLower := by
    rintro rfl
    rw [hc] at hw
    cases hw
  simp [equalIgnoringCase, hword, hlower, hne]

/-- A finite number is read back from a text of a sign and a numeral of its shortest decimal. -/
theorem read?_numeral (hx : x.isFinite = true) {n : Decimal.Numeral} (h : n.Spells x.shortest) :
    read? (x.shortest.signText.toList ++ n.chars) = some x := by
  obtain ⟨c, cs, hcs, hdigit⟩ := h.exists_chars_eq_cons
  have hsign : takeSign (x.shortest.signText.toList ++ n.chars) =
      (x.shortest.negative, n.chars) := by
    apply takeSign_signText
    intro e he
    rw [hcs] at he
    cases he
    exact hdigit
  have hinf : equalIgnoringCase (c :: cs) "inf".toList = false :=
    equalIgnoringCase_of_isDigit hdigit rfl (by decide)
  have hinfinity : equalIgnoringCase (c :: cs) "infinity".toList = false :=
    equalIgnoringCase_of_isDigit hdigit rfl (by decide)
  have hnan : equalIgnoringCase (c :: cs) "nan".toList = false :=
    equalIgnoringCase_of_isDigit hdigit rfl (by decide)
  have hunsigned := Decimal.readUnsigned?_chars h x.shortest.negative
  rw [hcs] at hsign hunsigned ⊢
  simp only [read?, hsign, hinf, hinfinity, hnan, hunsigned, Bool.or_self, Bool.false_eq_true,
    if_false, Option.map_some, h.toBinary64_eq, toBinary64_shortest hx]

/-- A finite number is read back from both of its texts. -/
theorem read?_text (hx : x.isFinite = true) (unbounded : String) :
    read? (x.plainText unbounded).toList = some x ∧ read? x.detailedText.toList = some x := by
  constructor
  · rw [plainText, if_pos hx, Decimal.toList_positional]
    exact read?_numeral hx (Decimal.spells_positional 0 (exponent_shortest_le hx))
  · obtain ⟨n, htext, hn, -⟩ := exists_detailed_numeral hx
    rw [htext]
    exact read?_numeral hx hn

end Binary64
end LambdaScript
