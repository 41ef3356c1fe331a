import LambdaScript.Proofs.Text.Join
import LambdaScript.Proofs.Toml.Document

/-! # Reading what is written

A table that a text can have is read back from the text that is written for it, with one line for
each of its entries, unless arrays and tables in braces are nested too deeply. Keys are written in
quotes and never with points, so that every line adds its value to the root table, whose other keys
are different. As tables that are read have distinct keys, the tables with a text are, up to that
depth, exactly those.
-/

namespace LambdaScript.Toml

/-! ## Texts -/

mutual

/-- How many arrays and tables of a value stand inside each other. -/
def nesting : Toml → ℕ
  | array items => nestingItems items + 1
  | table entries => nestingEntries entries + 1
  | _ => 0

def nestingItems : List Toml → ℕ
  | [] => 0
  | v :: vs => max (nesting v) (nestingItems vs)

def nestingEntries : List (String × Toml) → ℕ
  | [] => 0
  | (_, v) :: entries => max (nesting v) (nestingEntries entries)

end

mutual

/-- The text of a value on one line. -/
def write : Toml → String
  | string s => writeString s
  | integer n => Text.intText n.toInt
  | float x => floatWord x
  | boolean b => if b then "true" else "false"
  | moment text => text
  | array items => "[" ++ Text.commas (writeItems items) ++ "]"
  | table entries => "\x7b" ++ Text.commas (writeEntries entries) ++ "\x7d"

def writeItems : List Toml → List String
  | [] => []
  | v :: vs => write v :: writeItems vs

def writeEntries : List (String × Toml) → List String
  | [] => []
  | (k, v) :: entries => (writeString k ++ "=" ++ write v) :: writeEntries entries

end

/-- The text of a document: one line for each entry of its table. -/
def writeLines : List (String × Toml) → String
  | [] => ""
  | (k, v) :: entries => writeString k ++ "=" ++ write v ++ "\n" ++ writeLines entries

theorem nesting_le_nestingItems {vs : List Toml} {v : Toml} (h : v ∈ vs) :
    nesting v ≤ nestingItems vs := by
  induction vs with
  | nil => cases h
  | cons w vs ih =>
    rw [nestingItems]
    rcases List.mem_cons.mp h with rfl | h
    · exact Nat.le_max_left _ _
    · exact Nat.le_trans (ih h) (Nat.le_max_right _ _)

theorem nesting_le_nestingEntries {entries : List (String × Toml)} {e : String × Toml}
    (h : e ∈ entries) : nesting e.2 ≤ nestingEntries entries := by
  induction entries with
  | nil => cases h
  | cons f entries ih =>
    obtain ⟨key, v⟩ := f
    rw [nestingEntries]
    rcases List.mem_cons.mp h with rfl | h
    · exact Nat.le_max_left _ _
    · exact Nat.le_trans (ih h) (Nat.le_max_right _ _)

theorem toList_write_array (items : List Toml) :
    (write (array items)).toList = '[' :: ((Text.commas (writeItems items)).toList ++ [']']) := by
  simp [write]

theorem toList_write_table (entries : List (String × Toml)) :
    (write (table entries)).toList =
      '\x7b' :: ((Text.commas (writeEntries entries)).toList ++ ['\x7d']) := by
  simp [write]

theorem toList_writeEntry (key : String) (v : Toml) (rest : List Char) :
    (writeString key ++ "=" ++ write v).toList ++ rest =
      (writeString key).toList ++ '=' :: ((write v).toList ++ rest) := by
  simp

/-! ## Blanks -/

/-- Characters that stand neither between the parts of a document nor at the end of one. -/
def isStart (c : Char) : Bool := c ∉ [' ', '\t', '\n', '\r', '#', ']', '\x7d']

def Starts (cs : List Char) : Prop := ∃ c ds, cs = c :: ds ∧ isStart c = true

theorem Starts.append {cs : List Char} (h : Starts cs) (rest : List Char) :
    Starts (cs ++ rest) := by
  obtain ⟨c, ds, rfl, hc⟩ := h
  exact ⟨c, ds ++ rest, rfl, hc⟩

theorem isStart_of_isWordChar {c : Char} (h : isWordChar c = true) : isStart c = true := by
  apply decide_eq_true
  intro hc
  simp only [List.mem_cons, List.not_mem_nil, or_false] at hc
  rcases hc with rfl | rfl | rfl | rfl | rfl | rfl | rfl <;> cases h

theorem skipSpace_cons {c : Char} (h : c ∉ [' ', '\t']) (cs : List Char) :
    skipSpace (c :: cs) = c :: cs := by
  simp only [List.mem_cons, List.not_mem_nil, or_false, not_or] at h
  simp [skipSpace, isSpace, h.1, h.2]

theorem newline?_cons {c : Char} (h : c ∉ ['\n', '\r']) (cs : List Char) :
    newline? (c :: cs) = none := by
  simp only [List.mem_cons, List.not_mem_nil, or_false, not_or] at h
  unfold newline?
  split
  · next heq => exact absurd (List.cons.inj heq).1 h.1
  · next heq => exact absurd (List.cons.inj heq).1 h.2
  · rfl

theorem skipComment_cons {c : Char} (h : c ≠ '#') (cs : List Char) :
    skipComment (c :: cs) = c :: cs := by
  unfold skipComment
  split
  · next heq => exact absurd (List.cons.inj heq).1 h
  · rfl

theorem skipLines_cons {c : Char} (h : c ∉ [' ', '\t', '\n', '\r', '#']) (fuel : ℕ)
    (cs : List Char) : skipLines fuel (c :: cs) = c :: cs := by
  simp only [List.mem_cons, List.not_mem_nil, or_false, not_or] at h
  cases fuel with
  | zero => rfl
  | succ fuel =>
    rw [skipLines, skipSpace_cons (by simp [h]), skipComment_cons h.2.2.2.2]
    simp only [newline?_cons (by simp [h] : c ∉ ['\n', '\r'])]

theorem Starts.skipLines_eq {cs : List Char} (h : Starts cs) (fuel : ℕ) :
    skipLines fuel cs = cs := by
  obtain ⟨c, ds, rfl, hc⟩ := h
  apply skipLines_cons
  intro hmem
  apply of_decide_eq_true hc
  simp only [List.mem_cons] at hmem ⊢
  tauto

theorem Starts.skipSpace_eq {cs : List Char} (h : Starts cs) : skipSpace cs = cs := by
  obtain ⟨c, ds, rfl, hc⟩ := h
  apply skipSpace_cons
  intro hmem
  apply of_decide_eq_true hc
  simp only [List.mem_cons] at hmem ⊢
  tauto

/-! ## Values -/

/-- With enough fuel for its text and enough levels for its parts, a value is read back in front of
what follows it. -/
def ReadsBack (v : Toml) : Prop :=
  ∀ fuel depth rest, 2 * (write v).toList.length ≤ fuel → nesting v ≤ depth → Follows rest →
    value? fuel depth ((write v).toList ++ rest) = some (v, rest)

theorem value?_of_isWordChar {c : Char} (h : isWordChar c = true) (fuel depth : ℕ)
    (cs : List Char) : value? (fuel + 1) depth (c :: cs) = word? (c :: cs) := by
  have hnone {d : Char} (hd : isWordChar d = false) : c ≠ d := by
    rintro rfl
    rw [hd] at h
    cases h
  unfold value?
  split
  · next heq => exact absurd (List.cons.inj heq).1 (hnone (by decide))
  · next heq => exact absurd (List.cons.inj heq).1 (hnone (by decide))
  · next heq => exact absurd (List.cons.inj heq).1 (hnone (by decide))
  · next heq => exact absurd (List.cons.inj heq).1 (hnone (by decide))
  · next heq => exact absurd (List.cons.inj heq).1 (hnone (by decide))
  · next heq => exact absurd (List.cons.inj heq).1 (hnone (by decide))
  · rfl

/-- A text starts with a character of a word. -/
def StartsWord (cs : List Char) : Prop := ∃ c ds, cs = c :: ds ∧ isWordChar c = true

theorem StartsWord.starts {cs : List Char} (h : StartsWord cs) : Starts cs := by
  obtain ⟨c, ds, rfl, hc⟩ := h
  exact ⟨c, ds, rfl, isStart_of_isWordChar hc⟩

theorem startsWord_of_ofWord? {cs : List Char} (chars : ∀ c ∈ cs, isWordChar c = true) {v : Toml}
    (h : ofWord? cs = some v) : StartsWord cs := by
  cases cs with
  | nil => cases h
  | cons c cs => exact ⟨c, cs, rfl, chars c List.mem_cons_self⟩

theorem startsWord_moment {cs : List Char} (h : IsMomentText cs) : StartsWord cs := by
  cases h with
  | word chars moment => exact startsWord_of_ofWord? chars (ofWord?_moment moment)
  | @spaced date time date_chars time_chars isDate_eq isTime_eq =>
    cases date with
    | nil => cases isDate_eq
    | cons c date => exact ⟨c, _, rfl, date_chars c List.mem_cons_self⟩

theorem ReadsBack.of_word? {v : Toml} (starts : StartsWord (write v).toList)
    (h : ∀ rest, Follows rest → word? ((write v).toList ++ rest) = some (v, rest)) :
    ReadsBack v := by
  intro fuel depth rest hfuel _ hrest
  have hword := h rest hrest
  obtain ⟨c, cs, hcs, hc⟩ := starts
  rw [hcs, List.length_cons] at hfuel
  obtain ⟨fuel, rfl⟩ := Nat.exists_eq_succ_of_ne_zero (by omega : fuel ≠ 0)
  rw [hcs, List.cons_append] at hword ⊢
  rw [Nat.succ_eq_add_one, value?_of_isWordChar hc, hword]

theorem ReadsBack.of_ofWord? {v : Toml} (chars : ∀ c ∈ (write v).toList, isWordChar c = true)
    (h : ofWord? (write v).toList = some v) : ReadsBack v := by
  apply ReadsBack.of_word? (startsWord_of_ofWord? chars h)
  intro rest hrest
  rw [word?_append chars hrest, h, Option.map_some]

theorem isWordChar_of_mem_intText {n : Int} :
    ∀ c ∈ (Text.intText n).toList, isWordChar c = true := by
  intro c hc
  rcases Text.mem_intText hc with hc | rfl
  · exact isWordChar_of_isDigit hc
  · rfl

theorem starts_write {v : Toml} (h : Textual v) : Starts (write v).toList := by
  cases h with
  | string s => exact ⟨'"', _, toList_writeString s, by decide⟩
  | integer n =>
    exact (startsWord_of_ofWord? isWordChar_of_mem_intText (ofWord?_intText n)).starts
  | float hx =>
    exact (startsWord_of_ofWord? (isWordChar_of_mem_floatWord hx) (ofWord?_floatWord hx)).starts
  | boolean b =>
    cases b with
    | true => exact ⟨'t', _, rfl, by decide⟩
    | false => exact ⟨'f', _, rfl, by decide⟩
  | moment hmoment => exact (startsWord_moment hmoment).starts
  | array parts => exact ⟨'[', _, toList_write_array _, by decide⟩
  | table distinct parts => exact ⟨'\x7b', _, toList_write_table _, by decide⟩

theorem readsBack_string (s : String) : ReadsBack (string s) := by
  intro fuel depth rest hfuel _ hrest
  have hread := string?_writeString s hrest
  rw [write, toList_writeString, List.length_cons] at hfuel
  obtain ⟨fuel, rfl⟩ := Nat.exists_eq_succ_of_ne_zero (by omega : fuel ≠ 0)
  rw [toList_writeString, List.cons_append] at hread
  rw [write, toList_writeString, List.cons_append, Nat.succ_eq_add_one]
  cases depth <;> simp only [value?, hread, Option.map_some]

/-- What is read behind an item: another one follows, or the array ends. -/
def afterItem? (fuel depth : ℕ) (v : Toml) (cs : List Char) : Option (List Toml × List Char) :=
  match skipLines cs.length cs with
  | ',' :: cs => (items? fuel depth cs).map fun (vs, cs) => (v :: vs, cs)
  | ']' :: cs => some ([v], cs)
  | _ => none

theorem items?_of_starts {cs : List Char} (h : Starts cs) (fuel depth : ℕ) :
    items? (fuel + 1) depth cs =
      (value? fuel depth cs).bind fun p => afterItem? fuel depth p.1 p.2 := by
  rw [items?, h.skipLines_eq]
  obtain ⟨c, ds, rfl, hc⟩ := h
  split
  · next heq =>
    cases heq
    cases hc
  · rfl

theorem afterItem?_comma (fuel depth : ℕ) (v : Toml) (cs : List Char) :
    afterItem? fuel depth v (',' :: cs) =
      (items? fuel depth cs).map fun (vs, cs) => (v :: vs, cs) := by
  rw [afterItem?, skipLines_cons (by decide)]
  rfl

theorem afterItem?_end (fuel depth : ℕ) (v : Toml) (cs : List Char) :
    afterItem? fuel depth v (']' :: cs) = some ([v], cs) := by
  rw [afterItem?, skipLines_cons (by decide)]
  rfl

theorem items?_write {vs : List Toml} (each : ∀ v ∈ vs, Starts (write v).toList ∧ ReadsBack v)
    (ne_nil : vs ≠ []) {fuel depth : ℕ}
    (hfuel : 2 * (Text.commas (writeItems vs)).toList.length < fuel)
    (hdepth : ∀ v ∈ vs, nesting v ≤ depth) (rest : List Char) :
    items? fuel depth ((Text.commas (writeItems vs)).toList ++ ']' :: rest) = some (vs, rest) := by
  induction vs generalizing fuel with
  | nil => exact absurd rfl ne_nil
  | cons v vs ih =>
    obtain ⟨fuel, rfl⟩ := Nat.exists_eq_succ_of_ne_zero (Nat.ne_of_gt (Nat.zero_lt_of_lt hfuel))
    rw [List.forall_mem_cons] at each hdepth
    obtain ⟨hstarts, hv⟩ := each.1
    cases vs with
    | nil =>
      have hv := hv fuel depth (']' :: rest) (Nat.le_of_lt_succ hfuel) hdepth.1
        (Follows.cons (by decide) rest)
      change items? (fuel + 1) depth ((write v).toList ++ ']' :: rest) = some ([v], rest)
      rw [items?_of_starts (hstarts.append _), hv]
      exact afterItem?_end fuel depth v rest
    | cons w vs =>
      have hsplit : (Text.commas (writeItems (v :: w :: vs))).toList =
          (write v).toList ++ ',' :: (Text.commas (writeItems (w :: vs))).toList := by
        simp [writeItems, Text.commas, Text.joinWith]
      rw [hsplit, List.length_append, List.length_cons] at hfuel
      have hlast : 2 * (Text.commas (writeItems (w :: vs))).toList.length < fuel := by omega
      have hv := hv fuel depth (',' :: ((Text.commas (writeItems (w :: vs))).toList ++ ']' :: rest))
        (by omega) hdepth.1 (Follows.cons (by decide) _)
      have hvs := ih each.2 (List.cons_ne_nil w vs) hlast hdepth.2
      rw [hsplit, List.append_assoc, List.cons_append, items?_of_starts (hstarts.append _), hv]
      simp only [Option.bind_some, afterItem?_comma, hvs, Option.map_some]

theorem readsBack_array {items : List Toml}
    (each : ∀ v ∈ items, Starts (write v).toList ∧ ReadsBack v) : ReadsBack (array items) := by
  intro fuel depth rest hfuel hdepth _
  rw [toList_write_array] at hfuel ⊢
  simp only [List.length_cons, List.length_append, List.length_nil] at hfuel
  obtain ⟨fuel, rfl⟩ := Nat.exists_eq_add_of_le' (by omega : 2 ≤ fuel)
  rw [nesting] at hdepth
  obtain ⟨depth, rfl⟩ := Nat.exists_eq_add_of_le' (by omega : 1 ≤ depth)
  rw [List.cons_append, List.append_assoc, List.singleton_append]
  have hread : items? (fuel + 1) depth ((Text.commas (writeItems items)).toList ++ ']' :: rest) =
      some (items, rest) := by
    by_cases hne : items = []
    · subst hne
      change items? (fuel + 1) depth (']' :: rest) = some ([], rest)
      rw [items?, skipLines_cons (by decide)]
      rfl
    · apply items?_write each hne (by omega)
      intro v hv
      have hle := nesting_le_nestingItems hv
      omega
  change (items? (fuel + 1) depth _).map _ = _
  rw [hread]
  rfl

/-! ## Tables -/

theorem simpleKey?_writeString (s : String) (rest : List Char) :
    simpleKey? ((writeString s).toList ++ rest) = some (s, rest) := by
  rw [toList_writeString, List.cons_append, List.append_assoc, List.singleton_append]
  exact basicRest?_writeString s rest

theorem keyParts?_writeString (limit : ℕ) (s : String) (rest : List Char) :
    keyParts? (limit + 1) ((writeString s).toList ++ '=' :: rest) =
      some (([], s), '=' :: rest) := by
  have hstart : Starts ((writeString s).toList ++ '=' :: rest) :=
    ⟨'"', _, by rw [toList_writeString, List.cons_append], by decide⟩
  rw [keyParts?, hstart.skipSpace_eq, simpleKey?_writeString]
  simp only [Option.bind_eq_bind, Option.bind_some,
    skipSpace_cons (by decide : '=' ∉ [' ', '\t'])]
  rfl

theorem key?_writeString (s : String) (rest : List Char) :
    key? ((writeString s).toList ++ '=' :: rest) = some (([], s), '=' :: rest) :=
  keyParts?_writeString 78 s rest

/-- Entries that are values. -/
def values (entries : List (String × Toml)) : Entries := entries.map fun e => (e.1, .value e.2)

theorem finishEntries_values (entries : List (String × Toml)) :
    finishEntries (values entries) = entries := by
  rw [finishEntries_eq, values, List.map_map]
  exact List.map_id entries

theorem addUnder_values {entries : List (String × Toml)} {key : String}
    (h : key ∉ entries.map Prod.fst) (v : Toml) :
    (values entries).addUnder key v [] = some (values (entries ++ [(key, v)])) := by
  have hkeys : (values entries).map Prod.fst = entries.map Prod.fst := by
    rw [values, List.map_map]
    rfl
  have hlookup : (values entries).lookup key = none :=
    Keyed.lookup_eq_none_of_not_mem (hkeys ▸ h)
  rw [Entries.addUnder, Entries.add, hlookup]
  simp [values]

/-- What is read behind an entry of a table in braces: another one follows, or the table ends. -/
def afterPair? (fuel depth : ℕ) (done : Entries) (cs : List Char) :
    Option (Entries × List Char) :=
  match skipSpace cs with
  | ',' :: cs => pairs? fuel depth done cs
  | '\x7d' :: cs => some (done, cs)
  | _ => none

theorem pairs?_writeEntry {key : String} {v : Toml} (starts : Starts (write v).toList)
    (hv : ReadsBack v) {fuel depth : ℕ} (hfuel : 2 * (write v).toList.length ≤ fuel)
    (hdepth : nesting v ≤ depth) {before : List (String × Toml)}
    (hkey : key ∉ before.map Prod.fst) {rest : List Char} (hrest : Follows rest) :
    pairs? (fuel + 1) depth (values before)
        ((writeString key ++ "=" ++ write v).toList ++ rest) =
      afterPair? fuel depth (values (before ++ [(key, v)])) rest := by
  rw [toList_writeEntry, pairs?, key?_writeString]
  simp only [Option.bind_eq_bind, Option.bind_some, (starts.append rest).skipSpace_eq,
    hv fuel depth rest hfuel hdepth hrest, addUnder_values hkey]
  rfl

theorem pairs?_write {entries before : List (String × Toml)}
    (each : ∀ e ∈ entries, Starts (write e.2).toList ∧ ReadsBack e.2) (ne_nil : entries ≠ [])
    (distinct : ((before ++ entries).map Prod.fst).Nodup) {fuel depth : ℕ}
    (hfuel : 2 * (Text.commas (writeEntries entries)).toList.length < fuel)
    (hdepth : ∀ e ∈ entries, nesting e.2 ≤ depth) (rest : List Char) :
    pairs? fuel depth (values before)
        ((Text.commas (writeEntries entries)).toList ++ '\x7d' :: rest) =
      some (values (before ++ entries), rest) := by
  induction entries generalizing fuel before with
  | nil => exact absurd rfl ne_nil
  | cons e entries ih =>
    obtain ⟨key, v⟩ := e
    obtain ⟨fuel, rfl⟩ := Nat.exists_eq_succ_of_ne_zero (Nat.ne_of_gt (Nat.zero_lt_of_lt hfuel))
    rw [List.forall_mem_cons] at each hdepth
    have hstarts : Starts (write v).toList := each.1.1
    have hv : ReadsBack v := each.1.2
    have hkey : key ∉ before.map Prod.fst := Keyed.not_mem_before distinct
    have hnext : before ++ (key, v) :: entries = (before ++ [(key, v)]) ++ entries := by simp
    have hlength : (writeString key ++ "=" ++ write v).toList.length =
        (writeString key).toList.length + ((write v).toList.length + 1) := by
      simp
    cases entries with
    | nil =>
      change 2 * (writeString key ++ "=" ++ write v).toList.length < fuel + 1 at hfuel
      rw [hlength] at hfuel
      change pairs? (fuel + 1) depth (values before)
        ((writeString key ++ "=" ++ write v).toList ++ '\x7d' :: rest) = _
      rw [pairs?_writeEntry hstarts hv (by omega) hdepth.1 hkey (Follows.cons (by decide) rest)]
      rfl
    | cons f entries =>
      have hsplit : (Text.commas (writeEntries ((key, v) :: f :: entries))).toList =
          (writeString key ++ "=" ++ write v).toList ++
            ',' :: (Text.commas (writeEntries (f :: entries))).toList := by
        simp [writeEntries, Text.commas, Text.joinWith]
      rw [hsplit, List.length_append, List.length_cons, hlength] at hfuel
      have hlast : 2 * (Text.commas (writeEntries (f :: entries))).toList.length < fuel := by omega
      rw [hsplit, List.append_assoc, List.cons_append,
        pairs?_writeEntry hstarts hv (by omega) hdepth.1 hkey (Follows.cons (by decide) _), hnext]
      rw [hnext] at distinct
      exact ih each.2 (List.cons_ne_nil f entries) distinct hlast hdepth.2

theorem readsBack_table {entries : List (String × Toml)}
    (distinct : (entries.map Prod.fst).Nodup)
    (each : ∀ e ∈ entries, Starts (write e.2).toList ∧ ReadsBack e.2) :
    ReadsBack (table entries) := by
  intro fuel depth rest hfuel hdepth _
  rw [toList_write_table] at hfuel ⊢
  simp only [List.length_cons, List.length_append, List.length_nil] at hfuel
  obtain ⟨fuel, rfl⟩ := Nat.exists_eq_add_of_le' (by omega : 2 ≤ fuel)
  rw [nesting] at hdepth
  obtain ⟨depth, rfl⟩ := Nat.exists_eq_add_of_le' (by omega : 1 ≤ depth)
  rw [List.cons_append, List.append_assoc, List.singleton_append]
  cases entries with
  | nil => rfl
  | cons e entries =>
    obtain ⟨key, v⟩ := e
    have hdepth : ∀ f ∈ (key, v) :: entries, nesting f.2 ≤ depth := by
      intro f hf
      have hle := nesting_le_nestingEntries hf
      omega
    have hkeys : (([] ++ (key, v) :: entries).map Prod.fst).Nodup := distinct
    have hread := pairs?_write each (List.cons_ne_nil _ entries) hkeys
      (by omega : 2 * _ < fuel + 1) hdepth rest
    obtain ⟨cs, hcs⟩ := Text.exists_toList_commas (writeString key ++ "=" ++ write v)
      (writeEntries entries)
    have hquote : (Text.commas (writeEntries ((key, v) :: entries))).toList =
        '"' :: (key.toList.flatMap writeChar ++ '"' :: '=' :: ((write v).toList ++ cs)) := by
      rw [writeEntries, hcs]
      simp [toList_writeString]
    rw [hquote, List.cons_append] at hread ⊢
    change (pairs? (fuel + 1) depth [] _).map _ = _
    have hempty : values [] = [] := rfl
    rw [← hempty, hread]
    simp only [Option.map_some, finishEntries_values, List.nil_append]

theorem readsBack {v : Toml} (h : Textual v) : ReadsBack v := by
  induction h with
  | string s => exact readsBack_string s
  | integer n => exact .of_ofWord? isWordChar_of_mem_intText (ofWord?_intText n)
  | float hx => exact .of_ofWord? (isWordChar_of_mem_floatWord hx) (ofWord?_floatWord hx)
  | boolean b => cases b <;> exact .of_ofWord? (List.all_eq_true.mp (by decide)) rfl
  | @moment text hmoment =>
    have hstarts : StartsWord (write (moment text)).toList := startsWord_moment hmoment
    apply ReadsBack.of_word? hstarts
    intro rest hrest
    rw [write, word?_moment hmoment hrest, String.ofList_toList]
  | array parts ih => exact readsBack_array fun v hv => ⟨starts_write (parts v hv), ih v hv⟩
  | table distinct parts ih =>
    exact readsBack_table distinct fun e he => ⟨starts_write (parts e he), ih e he⟩

/-! ## Documents -/

theorem lineEnd?_newline (rest : List Char) : lineEnd? ('\n' :: rest) = some rest := by
  rw [lineEnd?, skipSpace_cons (by decide), skipComment_cons (by decide)]
  rfl

theorem lineEnd?_quote (cs : List Char) : lineEnd? ('"' :: cs) = none := by
  rw [lineEnd?, skipSpace_cons (by decide), skipComment_cons (by decide)]
  rfl

theorem line?_quote (d : Draft) (cs : List Char) :
    line? d ('"' :: cs) = keyValue? d ('"' :: cs) := by
  have hskip : skipSpace ('"' :: cs) = '"' :: cs := skipSpace_cons (by decide) cs
  simp [line?, hskip, lineEnd?_quote]

/-- The line of an entry adds it to the root table. -/
theorem line?_writeEntry {key : String} {v : Toml} (h : Textual v)
    (hdepth : nesting v ≤ maxDepth) {before : List (String × Toml)}
    (hkey : key ∉ before.map Prod.fst) (rest : List Char) :
    line? ⟨values before, []⟩ ((writeString key ++ "=" ++ write v).toList ++ '\n' :: rest) =
      some (⟨values (before ++ [(key, v)]), []⟩, rest) := by
  rw [toList_writeEntry]
  have hv := readsBack h (2 * ((write v).toList ++ '\n' :: rest).length + 2) maxDepth
    ('\n' :: rest) (by rw [List.length_append]; omega) hdepth (Follows.cons (by decide) rest)
  have hkeyValue : keyValue? ⟨values before, []⟩
      ((writeString key).toList ++ '=' :: ((write v).toList ++ '\n' :: rest)) =
        some (⟨values (before ++ [(key, v)]), []⟩, rest) := by
    rw [keyValue?, key?_writeString]
    simp only [Option.bind_eq_bind, Option.bind_some, ((starts_write h).append _).skipSpace_eq, hv,
      lineEnd?_newline, Draft.add, Entries.openPath, addUnder_values hkey, Option.map_some]
    rfl
  rw [toList_writeString, List.cons_append] at hkeyValue ⊢
  rw [line?_quote, hkeyValue]

theorem lines?_writeLines {entries before : List (String × Toml)}
    (each : ∀ e ∈ entries, Textual e.2 ∧ nesting e.2 ≤ maxDepth)
    (distinct : ((before ++ entries).map Prod.fst).Nodup) {fuel : ℕ}
    (hfuel : (writeLines entries).toList.length ≤ fuel) :
    lines? fuel ⟨values before, []⟩ (writeLines entries).toList =
      some ⟨values (before ++ entries), []⟩ := by
  induction entries generalizing fuel before with
  | nil => simp [writeLines, lines?]
  | cons e entries ih =>
    obtain ⟨key, v⟩ := e
    rw [List.forall_mem_cons] at each
    have hkey : key ∉ before.map Prod.fst := Keyed.not_mem_before distinct
    have hnext : before ++ (key, v) :: entries = (before ++ [(key, v)]) ++ entries := by simp
    have htext : (writeLines ((key, v) :: entries)).toList =
        (writeString key ++ "=" ++ write v).toList ++ '\n' :: (writeLines entries).toList := by
      simp [writeLines]
    rw [hnext] at distinct ⊢
    rw [htext, List.length_append, List.length_cons] at hfuel
    obtain ⟨fuel, rfl⟩ := Nat.exists_eq_add_of_le' (by omega : 1 ≤ fuel)
    have hline := line?_writeEntry each.1.1 each.1.2 hkey (writeLines entries).toList
    rw [htext]
    cases htext : (writeString key ++ "=" ++ write v).toList ++
        '\n' :: (writeLines entries).toList with
    | nil => simp at htext
    | cons c cs =>
      rw [htext] at hline
      rw [lines?, hline]
      · exact ih each.2 distinct (by omega)
      · exact List.cons_ne_nil c cs

theorem read?_of_head {s : String} (h : s.toList.head? ≠ some '\uFEFF') :
    read? s =
      (lines? (s.toList.length + 1) {} s.toList).map fun d => table (finishEntries d.root) := by
  unfold read?
  split
  · next heq => exact absurd (congrArg List.head? heq) h
  · rfl

/-- A table that a text can have is read back from its text. -/
theorem read?_writeLines {entries : List (String × Toml)} (h : Textual (table entries))
    (hdepth : ∀ e ∈ entries, nesting e.2 ≤ maxDepth) :
    read? (writeLines entries) = some (table entries) := by
  have hlines : lines? ((writeLines entries).toList.length + 1) {} (writeLines entries).toList =
      some ⟨values entries, []⟩ := by
    cases h with
    | table distinct parts =>
      have hkeys : (([] ++ entries).map Prod.fst).Nodup := distinct
      exact lines?_writeLines (fun e he => ⟨parts e he, hdepth e he⟩) hkeys (Nat.le_succ _)
  have hmark : (writeLines entries).toList.head? ≠ some '\uFEFF' := by
    cases entries with
    | nil => decide
    | cons e entries =>
      obtain ⟨key, v⟩ := e
      rw [writeLines, String.toList_append, String.toList_append, String.toList_append,
        String.toList_append, toList_writeString]
      simp
  rw [read?_of_head hmark, hlines, Option.map_some, finishEntries_values]

/-- Up to the greatest depth, the tables that have a text are those in which no key occurs twice and
every number, date and time is one that a word denotes. -/
theorem exists_read?_iff {entries : List (String × Toml)}
    (hdepth : ∀ e ∈ entries, nesting e.2 ≤ maxDepth) :
    (∃ s, read? s = some (table entries)) ↔ Textual (table entries) := by
  constructor
  · rintro ⟨s, hs⟩
    exact textual_of_read? hs
  · intro h
    exact ⟨writeLines entries, read?_writeLines h hdepth⟩

end LambdaScript.Toml
