import LambdaScript.Proofs.Json.Lexeme
import LambdaScript.Text.Quoted

/-! # Reading quoted text

No escape is the beginning of another one, and none begins with a quote. So the characters of a
quoted text are read back one by one, and where the text ends is known from the text itself.
-/

namespace LambdaScript

/-- The hexadecimal digits of a number are read back. -/
theorem Json.ofHex?_toDigits (n : ℕ) : ofHex? (Nat.toDigits 16 n) = some n := by
  induction n using Nat.strongRecOn with
  | ind n ih =>
  rw [Nat.toDigits_eq_if (by decide)]
  by_cases h : n < 16
  · simp [h, ofHex?, hexValue?_digitChar h]
  · have hlast := hexValue?_digitChar (Nat.mod_lt n (by decide : 0 < 16))
    have hfront := ih (n / 16) (by omega)
    rw [ofHex?] at hfront
    rw [if_neg h, ofHex?, List.foldlM_append, hfront]
    simp [hlast, Nat.div_add_mod]

namespace Text

theorem mem_toDigits_ne {n : ℕ} {c : Char} (h : c ∈ Nat.toDigits 16 n) : c ≠ '\x7d' := by
  have hdigit : ∀ d < 16, Nat.digitChar d ≠ '\x7d' := by decide
  induction n using Nat.strongRecOn with
  | ind n ih =>
  rw [Nat.toDigits_eq_if (by decide)] at h
  by_cases hn : n < 16
  · rw [if_pos hn, List.mem_singleton] at h
    exact h ▸ hdigit n hn
  · rw [if_neg hn, List.mem_append, List.mem_singleton] at h
    rcases h with h | rfl
    · exact ih (n / 16) (by omega) h
    · exact hdigit _ (Nat.mod_lt n (by decide))

/-- Reads the escape behind a backslash. -/
def readEscape? : List Char → Option (Char × List Char)
  | 'n' :: cs => some ('\n', cs)
  | 'r' :: cs => some ('\r', cs)
  | 't' :: cs => some ('\t', cs)
  | '0' :: cs => some ('\x00', cs)
  | 'u' :: '\x7b' :: cs =>
    let ds := cs.takeWhile (· ≠ '\x7d')
    (Json.ofHex? ds).map fun n => (Char.ofNat n, cs.drop (ds.length + 1))
  | c :: cs => some (c, cs)
  | [] => none

/-- Reads a character of a quoted text. -/
def readChar? : List Char → Option (Char × List Char)
  | '\\' :: cs => readEscape? cs
  | c :: cs => some (c, cs)
  | [] => none

theorem readEscape?_code (c : Char) (rest : List Char) :
    readEscape? ('u' :: '\x7b' :: (Nat.toDigits 16 c.toNat ++ '\x7d' :: rest)) =
      some (c, rest) := by
  have htake := (takeWhile_append_eq (fun d hd => decide_eq_true (mem_toDigits_ne hd))
    (fun d hd => by cases hd; rfl) : (Nat.toDigits 16 c.toNat ++ '\x7d' :: rest).takeWhile
      (· ≠ '\x7d') = _ ∧ _).1
  simp only [readEscape?, htake, Json.ofHex?_toDigits, Option.map_some, Char.ofNat_toNat]
  simp

/-- A quoted character is read back, whichever of the two quotes is in use. -/
theorem readChar?_quoteChar {quote : Char} (hquote : quote = '"' ∨ quote = '\'') (c : Char)
    (rest : List Char) : readChar? (quoteChar quote c ++ rest) = some (c, rest) := by
  rw [quoteChar]
  split
  · next h =>
    rcases h with rfl | rfl
    · rcases hquote with rfl | rfl <;> rfl
    · rfl
  · next h =>
    by_cases hnewline : c = '\n'
    · subst hnewline
      rfl
    · by_cases hreturn : c = '\r'
      · subst hreturn
        rfl
      · by_cases htab : c = '\t'
        · subst htab
          rfl
        · by_cases hnull : c = '\x00'
          · subst hnull
            rfl
          · simp only [hnewline, hreturn, htab, hnull, if_false]
            split
            · unfold readChar?
              split
              · next heq => exact absurd (List.cons.inj heq).1 (not_or.mp h).2
              · next heq =>
                cases heq
                rfl
              · next heq => cases heq
            · simpa [codeEscape, readChar?] using readEscape?_code c rest

/-- No character is written with a quote in front. -/
theorem quoteChar_append_ne (c : Char) (rest rest' : List Char) :
    quoteChar '"' c ++ rest ≠ '"' :: rest' := by
  intro h
  have hread : some (c, rest) = some ('"', rest') :=
    (readChar?_quoteChar (.inl rfl) c rest).symm.trans (congrArg readChar? h)
  cases hread
  simp [quoteChar] at h

theorem eq_of_flatMap_quoteChar {cs ds rest rest' : List Char}
    (h : cs.flatMap (quoteChar '"') ++ '"' :: rest = ds.flatMap (quoteChar '"') ++ '"' :: rest') :
    cs = ds ∧ rest = rest' := by
  induction cs generalizing ds with
  | nil =>
    cases ds with
    | nil => exact ⟨rfl, (List.cons.inj h).2⟩
    | cons d ds =>
      rw [List.flatMap_cons, List.append_assoc] at h
      exact absurd h.symm (quoteChar_append_ne d _ rest)
  | cons c cs ih =>
    cases ds with
    | nil =>
      rw [List.flatMap_cons, List.append_assoc] at h
      exact absurd h (quoteChar_append_ne c _ rest')
    | cons d ds =>
      rw [List.flatMap_cons, List.flatMap_cons, List.append_assoc, List.append_assoc] at h
      have hread := congrArg readChar? h
      rw [readChar?_quoteChar (.inl rfl), readChar?_quoteChar (.inl rfl), Option.some_inj,
        Prod.mk.injEq] at hread
      obtain ⟨hds, hrest⟩ := ih hread.2
      exact ⟨congrArg₂ List.cons hread.1 hds, hrest⟩

/-- Of a text that starts with a quoted one, the quoted one and the rest are determined. -/
theorem eq_of_quoted_append {s s' : String} {rest rest' : List Char}
    (h : (quoted s).toList ++ rest = (quoted s').toList ++ rest') : s = s' ∧ rest = rest' := by
  have htext (s : String) (rest : List Char) : (quoted s).toList ++ rest =
      '"' :: (s.toList.flatMap (quoteChar '"') ++ '"' :: rest) := by
    simp [quoted]
  rw [htext, htext] at h
  obtain ⟨hs, hrest⟩ := eq_of_flatMap_quoteChar (List.cons.inj h).2
  exact ⟨String.toList_inj.mp hs, hrest⟩

theorem eq_of_quotedChar_append {c d : Char} {rest rest' : List Char}
    (h : (quotedChar c).toList ++ rest = (quotedChar d).toList ++ rest') :
    c = d ∧ rest = rest' := by
  have htext (c : Char) (rest : List Char) : (quotedChar c).toList ++ rest =
      '\'' :: (quoteChar '\'' c ++ '\'' :: rest) := by
    simp [quotedChar]
  rw [htext, htext] at h
  have hread := congrArg readChar? (List.cons.inj h).2
  rw [readChar?_quoteChar (.inr rfl), readChar?_quoteChar (.inr rfl), Option.some_inj,
    Prod.mk.injEq] at hread
  exact ⟨hread.1, (List.cons.inj hread.2).2⟩

end Text
end LambdaScript
