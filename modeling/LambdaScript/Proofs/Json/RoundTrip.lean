import LambdaScript.Proofs.Json.Document
import LambdaScript.Proofs.Json.Lexeme
import LambdaScript.Proofs.Text.Join

/-! # Reading what is written

A document that a text can have is read back from the text that is written for it. The parts of an
array and the members of an object are read one after the other, each in front of a comma or the
closing bracket, and members come in the order in which they are written, because their keys are
new. As only such documents are ever read, they are exactly the documents that have a text.
-/

namespace LambdaScript.Json

/-- What stands behind a part of a document that is written. -/
def Follows (rest : List Char) : Prop :=
  ∀ c, rest.head? = some c → c = ',' ∨ c = ']' ∨ c = '\x7d'

theorem Follows.ends {rest : List Char} (h : Follows rest) : Ends rest := by
  intro c hc
  rcases h c hc with rfl | rfl | rfl <;> decide

theorem Follows.skipSpace_eq {rest : List Char} (h : Follows rest) : skipSpace rest = rest := by
  cases rest with
  | nil => rfl
  | cons c rest => rcases h c rfl with rfl | rfl | rfl <;> rfl

theorem skipSpace_cons {c : Char} (h : isSpace c = false) (cs : List Char) :
    skipSpace (c :: cs) = c :: cs := by
  simp [skipSpace, h]

/-! ## What documents start with -/

/-- A text starts with a character that is neither a blank nor the end of an array. -/
def Starts (cs : List Char) : Prop := ∃ c ds, cs = c :: ds ∧ isSpace c = false ∧ c ≠ ']'

theorem Starts.ne_nil {cs : List Char} (h : Starts cs) : cs ≠ [] := by
  obtain ⟨c, ds, rfl, -⟩ := h
  exact List.cons_ne_nil c ds

theorem Starts.append {cs : List Char} (h : Starts cs) (rest : List Char) :
    Starts (cs ++ rest) := by
  obtain ⟨c, ds, rfl, hspace, hend⟩ := h
  exact ⟨c, ds ++ rest, rfl, hspace, hend⟩

/-- Numbers start with a digit or a minus. -/
def StartsNumber (cs : List Char) : Prop :=
  ∃ c ds, cs = c :: ds ∧ (c = '-' ∨ Text.isDigit c = true)

theorem StartsNumber.starts {cs : List Char} (h : StartsNumber cs) : Starts cs := by
  obtain ⟨c, ds, rfl, rfl | hc⟩ := h
  · exact ⟨'-', ds, rfl, rfl, by decide⟩
  · refine ⟨c, ds, rfl, ?_, ?_⟩
    · simp only [isSpace, Bool.or_eq_false_iff, decide_eq_false_iff_not]
      refine ⟨⟨⟨?_, ?_⟩, ?_⟩, ?_⟩ <;> rintro rfl <;> cases hc
    · rintro rfl
      cases hc

theorem startsNumber_append {n : Decimal.Numeral} {d : Decimal} (h : n.Spells d)
    (rest : List Char) : StartsNumber (d.signText.toList ++ (n.chars ++ rest)) := by
  obtain ⟨c, cs, hcs, hc⟩ := h.exists_chars_eq_cons
  rw [hcs, Decimal.signText]
  cases d.negative with
  | true => exact ⟨'-', _, rfl, .inl rfl⟩
  | false => exact ⟨c, _, rfl, .inr hc⟩

theorem startsNumber_int (n : Int) (rest : List Char) :
    StartsNumber ((Text.intText n).toList ++ rest) := by
  rw [toList_intText_append]
  exact startsNumber_append (spells_wordNumeral n) rest

theorem startsNumber_float {x : Binary64} (hx : x.isFinite = true) (rest : List Char) :
    StartsNumber (x.detailedText.toList ++ rest) := by
  obtain ⟨n, htext, hn, -⟩ := Binary64.exists_detailed_numeral hx
  rw [htext, List.append_assoc]
  exact startsNumber_append hn rest

theorem toList_write_arr (items : List Json) :
    (write (arr items)).toList = '[' :: ((Text.commas (writeItems items)).toList ++ [']']) := by
  simp [write]

theorem toList_write_obj (members : List (String × Json)) :
    (write (obj members)).toList =
      '\x7b' :: ((Text.commas (writeMembers members)).toList ++ ['\x7d']) := by
  simp [write]

theorem starts_write (j : Json) : Starts (write j).toList := by
  cases j with
  | null => exact ⟨'n', _, rfl, rfl, by decide⟩
  | bool b =>
    cases b with
    | true => exact ⟨'t', _, rfl, rfl, by decide⟩
    | false => exact ⟨'f', _, rfl, rfl, by decide⟩
  | int n => simpa [write] using (startsNumber_int n []).starts
  | float x =>
    rw [write]
    split
    · next hx => simpa using (startsNumber_float hx []).starts
    · exact ⟨'n', _, rfl, rfl, by decide⟩
  | str s => exact ⟨'"', _, toList_writeString s, rfl, by decide⟩
  | arr items => exact ⟨'[', _, toList_write_arr items, rfl, by decide⟩
  | obj members => exact ⟨'\x7b', _, toList_write_obj members, rfl, by decide⟩

/-! ## Reading by the first character -/

theorem value?_of_startsNumber {cs : List Char} (h : StartsNumber cs) (fuel : Nat) :
    value? (fuel + 1) cs = number? cs := by
  obtain ⟨c, ds, rfl, hspace, -⟩ := h.starts
  obtain ⟨c, ds, hcs, hc⟩ := h
  cases hcs
  rw [value?, skipSpace_cons hspace]
  split <;> simp_all [Text.isDigit]

theorem value?_arr {cs : List Char} (h : Starts cs) (fuel : Nat) :
    value? (fuel + 1) ('[' :: cs) = (items? fuel cs).map fun (items, cs) => (arr items, cs) := by
  obtain ⟨c, ds, rfl, hspace, hend⟩ := h
  rw [value?, skipSpace_cons rfl]
  simp only [skipSpace_cons hspace]
  split
  · next heq =>
    cases heq
    exact absurd rfl hend
  · rfl

theorem value?_obj (cs : List Char) (fuel : Nat) :
    value? (fuel + 1) ('\x7b' :: '"' :: cs) =
      (members? fuel [] ('"' :: cs)).map fun (members, cs) => (obj members, cs) := by
  rw [value?, skipSpace_cons rfl]
  simp only [skipSpace_cons (rfl : isSpace '"' = false)]
  rfl

/-! ## Reading back -/

/-- With enough fuel for its text, a document is read back in front of what follows it. -/
def ReadsBack (j : Json) : Prop :=
  ∀ fuel rest, 2 * (write j).toList.length ≤ fuel → Follows rest →
    value? fuel ((write j).toList ++ rest) = some (j, rest)

theorem items?_write {js : List Json} (each : ∀ j ∈ js, ReadsBack j) (hne : js ≠ [])
    {fuel : Nat} (hfuel : 2 * (Text.commas (writeItems js)).toList.length < fuel)
    (rest : List Char) :
    items? fuel ((Text.commas (writeItems js)).toList ++ ']' :: rest) = some (js, rest) := by
  induction js generalizing fuel with
  | nil => exact absurd rfl hne
  | cons j js ih =>
    obtain ⟨fuel, rfl⟩ := Nat.exists_eq_succ_of_ne_zero (Nat.ne_of_gt (Nat.zero_lt_of_lt hfuel))
    rw [List.forall_mem_cons] at each
    cases js with
    | nil =>
      have hj := each.1 fuel (']' :: rest) (Nat.le_of_lt_succ hfuel) (by simp [Follows])
      change items? (fuel + 1) ((write j).toList ++ ']' :: rest) = some ([j], rest)
      simp [items?, hj, skipSpace_cons, isSpace]
    | cons k js =>
      have hsplit : (Text.commas (writeItems (j :: k :: js))).toList =
          (write j).toList ++ ',' :: (Text.commas (writeItems (k :: js))).toList := by
        simp [writeItems, Text.commas, Text.joinWith]
      rw [hsplit, List.length_append, List.length_cons] at hfuel
      rw [hsplit, List.append_assoc, List.cons_append]
      have hlast : 2 * (Text.commas (writeItems (k :: js))).toList.length < fuel := by omega
      have hj := each.1 fuel (',' :: ((Text.commas (writeItems (k :: js))).toList ++ ']' :: rest))
        (by omega) (by simp [Follows])
      simp [items?, hj, skipSpace_cons, isSpace, ih each.2 (List.cons_ne_nil k js) hlast]

/-- What is read behind a member: another one follows, or the object ends. -/
def afterMember? (fuel : Nat) (read : List (String × Json)) :
    List Char → Option (List (String × Json) × List Char)
  | ',' :: cs => members? fuel read cs
  | '\x7d' :: cs => some (read, cs)
  | _ => none

theorem members?_writeMember {key : String} {j : Json} (hj : ReadsBack j) {fuel : Nat}
    (hfuel : 2 * (write j).toList.length ≤ fuel) {read : List (String × Json)}
    (hkey : key ∉ read.map Prod.fst) {rest : List Char} (hrest : Follows rest) :
    members? (fuel + 1) read ((writeString key ++ ":" ++ write j).toList ++ rest) =
      afterMember? fuel (read ++ [(key, j)]) rest := by
  have htext : (writeString key ++ ":" ++ write j).toList ++ rest =
      (writeString key).toList ++ ':' :: ((write j).toList ++ rest) := by
    simp
  have hstart : skipSpace ((writeString key).toList ++ ':' :: ((write j).toList ++ rest)) =
      (writeString key).toList ++ ':' :: ((write j).toList ++ rest) := by
    rw [toList_writeString, List.cons_append]
    exact skipSpace_cons rfl _
  rw [htext, members?, hstart, string?_writeString]
  simp only [Option.bind_eq_bind, Option.bind_some, skipSpace_cons (rfl : isSpace ':' = false),
    hj fuel rest hfuel hrest, hrest.skipSpace_eq, setMember_of_not_mem hkey]
  rfl

theorem members?_write {ms : List (String × Json)} (each : ∀ m ∈ ms, ReadsBack m.2) (hne : ms ≠ [])
    {read : List (String × Json)} (distinct : ((read ++ ms).map Prod.fst).Nodup) {fuel : Nat}
    (hfuel : 2 * (Text.commas (writeMembers ms)).toList.length < fuel) (rest : List Char) :
    members? fuel read ((Text.commas (writeMembers ms)).toList ++ '\x7d' :: rest) =
      some (read ++ ms, rest) := by
  induction ms generalizing fuel read with
  | nil => exact absurd rfl hne
  | cons m ms ih =>
    obtain ⟨key, j⟩ := m
    obtain ⟨fuel, rfl⟩ := Nat.exists_eq_succ_of_ne_zero (Nat.ne_of_gt (Nat.zero_lt_of_lt hfuel))
    rw [List.forall_mem_cons] at each
    have hkey : key ∉ read.map Prod.fst := Keyed.not_mem_before distinct
    have hj : ReadsBack j := each.1
    have hnext : read ++ (key, j) :: ms = (read ++ [(key, j)]) ++ ms := by simp
    cases ms with
    | nil =>
      change 2 * (writeString key ++ ":" ++ write j).toList.length < fuel + 1 at hfuel
      rw [String.toList_append, List.length_append] at hfuel
      exact members?_writeMember hj (by omega) hkey (by simp [Follows])
    | cons n ms =>
      have hsplit : (Text.commas (writeMembers ((key, j) :: n :: ms))).toList =
          (writeString key ++ ":" ++ write j).toList ++
            ',' :: (Text.commas (writeMembers (n :: ms))).toList := by
        simp [writeMembers, Text.commas, Text.joinWith]
      rw [hsplit, List.length_append, List.length_cons, String.toList_append,
        List.length_append] at hfuel
      have hlast : 2 * (Text.commas (writeMembers (n :: ms))).toList.length < fuel := by omega
      rw [hsplit, List.append_assoc, List.cons_append,
        members?_writeMember hj (by omega) hkey (by simp [Follows]), hnext]
      rw [hnext] at distinct
      exact ih each.2 (List.cons_ne_nil n ms) distinct hlast

theorem ReadsBack.of_succ {j : Json}
    (h : ∀ fuel rest, 2 * (write j).toList.length ≤ fuel + 1 → Follows rest →
      value? (fuel + 1) ((write j).toList ++ rest) = some (j, rest)) : ReadsBack j := by
  intro fuel rest hfuel hrest
  have hpos := List.length_pos_iff.mpr (starts_write j).ne_nil
  obtain ⟨fuel, rfl⟩ := Nat.exists_eq_succ_of_ne_zero (by omega : fuel ≠ 0)
  exact h fuel rest hfuel hrest

theorem readsBack_arr {items : List Json} (parts : ∀ j ∈ items, ReadsBack j) :
    ReadsBack (arr items) := by
  apply ReadsBack.of_succ
  intro fuel rest hfuel hrest
  rw [toList_write_arr] at hfuel ⊢
  cases items with
  | nil => simp [value?, writeItems, Text.commas, Text.joinWith, skipSpace_cons, isSpace]
  | cons j items =>
    have hstarts : Starts (Text.commas (writeItems (j :: items))).toList := by
      obtain ⟨rest, hrest⟩ := Text.exists_toList_commas (write j) (writeItems items)
      rw [writeItems, hrest]
      exact (starts_write j).append rest
    rw [List.cons_append, List.append_assoc, List.singleton_append, value?_arr (hstarts.append _),
      items?_write parts (List.cons_ne_nil j items)]
    · rfl
    · simp only [List.length_cons, List.length_append, List.length_nil] at hfuel
      omega

theorem readsBack_obj {members : List (String × Json)} (distinct : (members.map Prod.fst).Nodup)
    (parts : ∀ m ∈ members, ReadsBack m.2) : ReadsBack (obj members) := by
  apply ReadsBack.of_succ
  intro fuel rest hfuel hrest
  rw [toList_write_obj] at hfuel ⊢
  cases members with
  | nil => simp [value?, writeMembers, Text.commas, Text.joinWith, skipSpace_cons, isSpace]
  | cons m members =>
    obtain ⟨key, j⟩ := m
    obtain ⟨cs, hcs⟩ := Text.exists_toList_commas (writeString key ++ ":" ++ write j)
      (writeMembers members)
    have hquote : (Text.commas (writeMembers ((key, j) :: members))).toList =
        '"' :: (key.toList.flatMap writeChar ++ '"' :: ':' :: ((write j).toList ++ cs)) := by
      rw [writeMembers, hcs]
      simp [toList_writeString]
    have hlength : 2 * (Text.commas (writeMembers ((key, j) :: members))).toList.length < fuel := by
      simp only [List.length_cons, List.length_append, List.length_nil] at hfuel
      omega
    have hkeys : (([] ++ (key, j) :: members).map Prod.fst).Nodup := distinct
    have hmembers := members?_write parts (List.cons_ne_nil _ members) hkeys hlength rest
    rw [hquote, List.cons_append] at hmembers
    rw [List.cons_append, List.append_assoc, List.singleton_append, hquote, List.cons_append,
      value?_obj, hmembers]
    rfl

theorem readsBack {j : Json} (h : Textual j) : ReadsBack j := by
  induction h with
  | null =>
    apply ReadsBack.of_succ
    intro fuel rest hfuel hrest
    simp [write, value?, skipSpace_cons, isSpace, word?]
  | bool b =>
    apply ReadsBack.of_succ
    intro fuel rest hfuel hrest
    cases b <;> simp [write, value?, skipSpace_cons, isSpace, word?]
  | int least greatest =>
    apply ReadsBack.of_succ
    intro fuel rest hfuel hrest
    rw [write, value?_of_startsNumber (startsNumber_int _ rest),
      number?_int least greatest hrest.ends]
  | float finite =>
    apply ReadsBack.of_succ
    intro fuel rest hfuel hrest
    rw [write, if_pos finite, value?_of_startsNumber (startsNumber_float finite rest),
      number?_float finite hrest.ends]
  | str s =>
    apply ReadsBack.of_succ
    intro fuel rest hfuel hrest
    have hs := string?_writeString s rest
    rw [toList_writeString, List.cons_append] at hs
    rw [write, toList_writeString, List.cons_append, value?, skipSpace_cons rfl]
    simp only [hs, Option.map_some]
  | arr parts ih => exact readsBack_arr ih
  | obj distinct parts ih => exact readsBack_obj distinct ih

/-- A document that a text can have is read back from its text. -/
theorem read?_write {j : Json} (h : Textual j) : read? (write j) = some j := by
  have hread := readsBack h (2 * (write j).toList.length + 2) [] (by omega) (by simp [Follows])
  rw [List.append_nil] at hread
  simp only [read?, hread, Option.bind_eq_bind, Option.bind_some, skipSpace, List.dropWhile_nil,
    List.isEmpty_nil, if_true]

/-- The documents that have a text are those whose numbers are in range and whose objects have no
key twice. -/
theorem exists_read?_iff {j : Json} : (∃ s, read? s = some j) ↔ Textual j := by
  constructor
  · rintro ⟨s, hs⟩
    exact textual_of_read? hs
  · intro h
    exact ⟨write j, read?_write h⟩

end LambdaScript.Json
