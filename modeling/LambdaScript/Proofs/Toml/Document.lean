import LambdaScript.Proofs.Keyed
import LambdaScript.Proofs.Toml.Lexeme
import LambdaScript.Toml.Read

/-! # Tables that are read

A line adds one entry to one table of the document that is being read. Whatever the line, no key
of a table is ever there twice: dotted keys and headers go on with the tables that are there, and a
new entry is added only where its key is not. So a document that is read has distinct keys in all of
its tables, those in braces included.
-/

namespace LambdaScript.Toml

/-- A value that a text can have: no key of a table occurs twice. -/
inductive Textual : Toml → Prop
  | string (s : String) : Textual (string s)
  | integer (n : Int64) : Textual (integer n)
  | float {x : Binary64} (h : x.IsRead) : Textual (float x)
  | boolean (b : Bool) : Textual (boolean b)
  | moment {text : String} (h : IsMomentText text.toList) : Textual (moment text)
  | array {items : List Toml} (parts : ∀ v ∈ items, Textual v) : Textual (array items)
  | table {entries : List (String × Toml)} (distinct : (entries.map Prod.fst).Nodup)
      (parts : ∀ e ∈ entries, Textual e.2) : Textual (table entries)

/-! ## Words -/

theorem textual_of_ofWord? {cs : List Char} (chars : ∀ c ∈ cs, isWordChar c = true) {v : Toml}
    (h : ofWord? cs = some v) : Textual v := by
  rw [ofWord?] at h
  split at h
  · cases h
    exact .boolean true
  · split at h
    · cases h
      exact .boolean false
    · split at h
      · next hmoment =>
        cases h
        exact .moment (String.toList_ofList ▸ .word chars hmoment)
      · split at h
        · cases h
          exact .integer _
        · obtain ⟨x, hx, rfl⟩ := Option.map_eq_some_iff.mp h
          exact .float (isRead_of_float? hx)

theorem isWordChar_of_mem_takeWhile {cs : List Char} {c : Char}
    (h : c ∈ cs.takeWhile isWordChar) : isWordChar c = true :=
  List.all_eq_true.mp List.all_takeWhile c h

theorem textual_of_word? {cs rest : List Char} {v : Toml} (h : word? cs = some (v, rest)) :
    Textual v := by
  have hchars (cs : List Char) : ∀ c ∈ cs.takeWhile isWordChar, isWordChar c = true :=
    fun _ => isWordChar_of_mem_takeWhile
  simp only [word?] at h
  split at h
  · next hdate _ =>
    split at h
    · next htime =>
      cases h
      exact .moment (String.toList_ofList ▸ .spaced (hchars _) (hchars _) hdate htime)
    · cases h
      have hmoment : isMoment (cs.takeWhile isWordChar) = true := by
        rw [isMoment, hdate, Bool.true_or, Bool.true_or]
      exact .moment (String.toList_ofList ▸ .word (hchars _) hmoment)
  · obtain ⟨v, hv, heq⟩ := Option.map_eq_some_iff.mp h
    cases heq
    exact textual_of_ofWord? (hchars _) hv

/-! ## Entries -/

theorem finishEntries_eq (entries : Entries) :
    finishEntries entries = entries.map fun e => (e.1, e.2.finish) := by
  induction entries with
  | nil => rfl
  | cons e entries ih => rw [finishEntries, ih, List.map_cons]

theorem finishTables_eq (tables : List Entries) :
    finishTables tables = tables.map fun entries => table (finishEntries entries) := by
  induction tables with
  | nil => rfl
  | cons entries tables ih => rw [finishTables, ih, List.map_cons]

namespace Entries
variable {entries entries' : Entries} {key : String} {node : Node}

/-- The entries are those of a table that a text can have. -/
def Textual (entries : Entries) : Prop := Toml.Textual (table (finishEntries entries))

theorem textual_iff : entries.Textual ↔
    (entries.map Prod.fst).Nodup ∧ ∀ e ∈ entries, Toml.Textual e.2.finish := by
  have hkeys : (finishEntries entries).map Prod.fst = entries.map Prod.fst := by
    rw [finishEntries_eq, List.map_map]
    rfl
  rw [Textual, ← hkeys]
  constructor
  · intro h
    cases h with
    | table distinct parts =>
      refine ⟨distinct, fun e he => parts (e.1, e.2.finish) ?_⟩
      rw [finishEntries_eq]
      exact List.mem_map_of_mem he
  · rintro ⟨distinct, parts⟩
    apply Toml.Textual.table distinct
    rw [finishEntries_eq, List.forall_mem_map]
    exact parts

theorem textual_nil : Textual [] := textual_iff.mpr ⟨List.nodup_nil, by simp⟩

theorem textual_tables_iff {earlier : List Entries} {last : Entries} :
    Toml.Textual (Node.tables earlier last).finish ↔
      (∀ entries ∈ earlier, entries.Textual) ∧ last.Textual := by
  have hitems : (∀ v ∈ earlier.map (fun entries => table (finishEntries entries)) ++
      [table (finishEntries last)], Toml.Textual v) ↔
        (∀ entries ∈ earlier, entries.Textual) ∧ last.Textual := by
    rw [List.forall_mem_append, List.forall_mem_map, List.forall_mem_singleton]
    rfl
  rw [Node.finish, finishTables_eq, ← hitems]
  constructor
  · intro h
    cases h with
    | array parts => exact parts
  · exact .array

namespace Textual

theorem of_lookup (h : entries.Textual) (hnode : entries.lookup key = some node) :
    Toml.Textual node.finish :=
  (textual_iff.mp h).2 (key, node) (Keyed.mem_of_lookup_eq_some hnode)

theorem concat (h : entries.Textual) (hkey : entries.lookup key = none) (node : Node)
    (hnode : Toml.Textual node.finish) : Textual (entries ++ [(key, node)]) := by
  obtain ⟨distinct, parts⟩ := textual_iff.mp h
  apply textual_iff.mpr
  constructor
  · exact Keyed.nodup_concat distinct (Keyed.not_mem_of_lookup_eq_none hkey) node
  · rw [List.forall_mem_append, List.forall_mem_singleton]
    exact ⟨parts, hnode⟩

theorem replace (h : entries.Textual) (key : String) (node : Node)
    (hnode : Toml.Textual node.finish) : (entries.replace key node).Textual := by
  obtain ⟨distinct, parts⟩ := textual_iff.mp h
  have hkeys : (entries.replace key node).map Prod.fst = entries.map Prod.fst := by
    rw [Entries.replace, List.map_map]
    apply List.map_congr_left
    rintro ⟨k, n⟩ -
    by_cases hk : k = key <;> simp [hk]
  apply textual_iff.mpr
  rw [hkeys, Entries.replace, List.forall_mem_map]
  refine ⟨distinct, ?_⟩
  rintro ⟨k, n⟩ he
  by_cases hk : k = key
  · simpa [hk] using hnode
  · simpa [hk] using parts (k, n) he

end Textual

/-- A change that keeps keys distinct. -/
def Keeps (change : Entries → Option Entries) : Prop :=
  ∀ ⦃entries entries'⦄, entries.Textual → change entries = some entries' → entries'.Textual

theorem keeps_add {v : Toml} (hv : Toml.Textual v) (key : String) :
    Keeps (·.add key (.value v)) := by
  intro entries entries' h hadd
  simp only [add] at hadd
  split at hadd
  · next hkey =>
    cases hadd
    exact h.concat hkey (.value v) hv
  · cases hadd

theorem textual_ofPath {v : Toml} (hv : Toml.Textual v) (key : String) (path : List String) :
    (ofPath key v path).Textual := by
  induction path with
  | nil => exact textual_nil.concat rfl (.value v) hv
  | cons p path ih => exact textual_nil.concat rfl (.table .dotted (ofPath key v path)) ih

theorem keeps_addUnder {v : Toml} (hv : Toml.Textual v) (key : String) (path : List String) :
    Keeps (addUnder key v path) := by
  induction path with
  | nil => exact keeps_add hv key
  | cons p path ih =>
    intro entries entries' h hadd
    rw [addUnder] at hadd
    split at hadd
    · next hkey =>
      cases hadd
      exact h.concat hkey (.table .dotted _) (textual_ofPath hv key path)
    · cases hadd
    · next inner hnode =>
      obtain ⟨-, hadd⟩ := Option.ite_none_left_eq_some.mp hadd
      obtain ⟨inner', hinner, rfl⟩ := Option.map_eq_some_iff.mp hadd
      exact h.replace p (.table .parent inner') (ih (h.of_lookup hnode) hinner)
    · next inner hnode =>
      obtain ⟨inner', hinner, rfl⟩ := Option.map_eq_some_iff.mp hadd
      exact h.replace p (.table .dotted inner') (ih (h.of_lookup hnode) hinner)
    · next earlier last hnode =>
      obtain ⟨-, hadd⟩ := Option.ite_none_left_eq_some.mp hadd
      obtain ⟨last', hlast, rfl⟩ := Option.map_eq_some_iff.mp hadd
      obtain ⟨hearlier, hbefore⟩ := textual_tables_iff.mp (h.of_lookup hnode)
      have htables := textual_tables_iff.mpr ⟨hearlier, ih hbefore hlast⟩
      exact h.replace p (.tables earlier last') htables
    · cases hadd

theorem keeps_openPath {change : Entries → Option Entries} (hchange : Keeps change)
    (path : List String) : Keeps (openPath change path) := by
  induction path with
  | nil => exact hchange
  | cons p path ih =>
    intro entries entries' h hopen
    rw [openPath] at hopen
    split at hopen
    · next hkey =>
      obtain ⟨inner, hinner, rfl⟩ := Option.map_eq_some_iff.mp hopen
      exact h.concat hkey (.table .parent inner) (ih textual_nil hinner)
    · next origin inner hnode =>
      obtain ⟨inner', hinner, rfl⟩ := Option.map_eq_some_iff.mp hopen
      exact h.replace p (.table origin inner') (ih (h.of_lookup hnode) hinner)
    · next earlier last hnode =>
      obtain ⟨last', hlast, rfl⟩ := Option.map_eq_some_iff.mp hopen
      obtain ⟨hearlier, hbefore⟩ := textual_tables_iff.mp (h.of_lookup hnode)
      have htables := textual_tables_iff.mpr ⟨hearlier, ih hbefore hlast⟩
      exact h.replace p (.tables earlier last') htables
    · cases hopen

theorem keeps_openTable (key : String) : Keeps (openTable key) := by
  intro entries entries' h hopen
  rw [openTable] at hopen
  split at hopen
  · next hkey =>
    cases hopen
    exact h.concat hkey (.table .header []) textual_nil
  · next inner hnode =>
    cases hopen
    have hinner : Textual inner := h.of_lookup hnode
    exact h.replace key (.table .header inner) hinner
  · cases hopen

theorem keeps_openTables (key : String) : Keeps (openTables key) := by
  intro entries entries' h hopen
  rw [openTables] at hopen
  split at hopen
  · next hkey =>
    cases hopen
    exact h.concat hkey (.tables [] []) (textual_tables_iff.mpr ⟨by simp, textual_nil⟩)
  · next earlier last hnode =>
    cases hopen
    obtain ⟨hearlier, hlast⟩ := textual_tables_iff.mp (h.of_lookup hnode)
    apply h.replace key (.tables (earlier ++ [last]) [])
    apply textual_tables_iff.mpr
    rw [List.forall_mem_append, List.forall_mem_singleton]
    exact ⟨⟨hearlier, hlast⟩, textual_nil⟩
  · cases hopen

end Entries

/-! ## Values -/

/-- With some fuel, all three readers give values that a text can have. -/
structure ReadsTextual (fuel : ℕ) : Prop where
  value {depth : ℕ} {cs rest : List Char} {v : Toml} (h : value? fuel depth cs = some (v, rest)) :
    Textual v
  items {depth : ℕ} {cs rest : List Char} {vs : List Toml}
    (h : items? fuel depth cs = some (vs, rest)) : ∀ v ∈ vs, Textual v
  pairs {depth : ℕ} {done entries : Entries} {cs rest : List Char} (before : done.Textual)
    (h : pairs? fuel depth done cs = some (entries, rest)) : entries.Textual

namespace ReadsTextual
variable {fuel depth : ℕ} {cs rest : List Char}

theorem value_succ (ih : ReadsTextual fuel) {v : Toml}
    (h : value? (fuel + 1) depth cs = some (v, rest)) : Textual v := by
  unfold value? at h
  split at h
  · obtain ⟨⟨s, tail⟩, -, heq⟩ := Option.map_eq_some_iff.mp h
    cases heq
    exact .string s
  · obtain ⟨⟨s, tail⟩, -, heq⟩ := Option.map_eq_some_iff.mp h
    cases heq
    exact .string s
  · cases h
  · cases h
  · obtain ⟨⟨vs, tail⟩, hvs, heq⟩ := Option.map_eq_some_iff.mp h
    cases heq
    exact .array (ih.items hvs)
  · split at h
    · cases h
      exact Entries.textual_nil
    · obtain ⟨⟨entries, tail⟩, hentries, heq⟩ := Option.map_eq_some_iff.mp h
      cases heq
      exact ih.pairs Entries.textual_nil hentries
  · exact textual_of_word? h

theorem items_succ (ih : ReadsTextual fuel) {vs : List Toml}
    (h : items? (fuel + 1) depth cs = some (vs, rest)) : ∀ v ∈ vs, Textual v := by
  rw [items?] at h
  split at h
  · cases h
    simp
  · simp only [Option.bind_eq_bind, Option.bind_eq_some_iff, Prod.exists] at h
    obtain ⟨v, _, hv, h⟩ := h
    have hv := ih.value hv
    split at h
    · obtain ⟨⟨vs, tail⟩, hvs, heq⟩ := Option.map_eq_some_iff.mp h
      cases heq
      exact List.forall_mem_cons.mpr ⟨hv, ih.items hvs⟩
    · cases h
      simpa using hv
    · cases h

theorem pairs_succ (ih : ReadsTextual fuel) {done entries : Entries} (before : done.Textual)
    (h : pairs? (fuel + 1) depth done cs = some (entries, rest)) : entries.Textual := by
  simp only [pairs?, Option.bind_eq_bind, Option.bind_eq_some_iff, Prod.exists] at h
  obtain ⟨path, key, _, -, h⟩ := h
  split at h
  · simp only [Option.bind_eq_some_iff, Prod.exists] at h
    obtain ⟨v, _, hv, done', hdone, h⟩ := h
    have hdone := Entries.keeps_addUnder (ih.value hv) key path before hdone
    split at h
    · exact ih.pairs hdone h
    · cases h
      exact hdone
    · cases h
  · cases h

end ReadsTextual

theorem readsTextual (fuel : ℕ) : ReadsTextual fuel := by
  induction fuel with
  | zero => exact ⟨by simp [value?], by simp [items?], by simp [pairs?]⟩
  | succ fuel ih => exact ⟨ih.value_succ, ih.items_succ, ih.pairs_succ⟩

/-! ## Lines -/

section lines
variable {d d' : Draft} {cs rest : List Char}

theorem textual_header? {change : String → Entries → Option Entries}
    (hchange : ∀ key, Entries.Keeps (change key)) {closing : List Char} (h : d.root.Textual)
    (hline : header? d change closing cs = some (d', rest)) : d'.root.Textual := by
  simp only [header?, Option.bind_eq_bind, Option.bind_eq_some_iff, Prod.exists] at hline
  obtain ⟨path, key, _, -, hline⟩ := hline
  split at hline
  · simp only [Option.bind_eq_some_iff, Option.pure_def, Option.some.injEq, Prod.mk.injEq] at hline
    obtain ⟨_, -, _, henter, rfl, -⟩ := hline
    obtain ⟨root, hroot, rfl⟩ := Option.map_eq_some_iff.mp henter
    exact Entries.keeps_openPath (hchange key) path h hroot
  · cases hline

theorem textual_keyValue? (h : d.root.Textual) (hline : keyValue? d cs = some (d', rest)) :
    d'.root.Textual := by
  simp only [keyValue?, Option.bind_eq_bind, Option.bind_eq_some_iff, Prod.exists] at hline
  obtain ⟨path, key, _, -, hline⟩ := hline
  split at hline
  · simp only [Option.bind_eq_some_iff, Prod.exists, Option.pure_def, Option.some.injEq,
      Prod.mk.injEq] at hline
    obtain ⟨v, _, hv, _, -, _, hadd, rfl, -⟩ := hline
    obtain ⟨root, hroot, rfl⟩ := Option.map_eq_some_iff.mp hadd
    have hv := (readsTextual _).value hv
    exact Entries.keeps_openPath (Entries.keeps_addUnder hv key path) d.path h hroot
  · cases hline

/-- A line keeps the keys of all tables distinct. -/
theorem textual_line? (h : d.root.Textual) (hline : line? d cs = some (d', rest)) :
    d'.root.Textual := by
  rw [line?] at hline
  split at hline
  · exact textual_header? Entries.keeps_openTables h hline
  · exact textual_header? Entries.keeps_openTable h hline
  · split at hline
    · cases hline
      exact h
    · exact textual_keyValue? h hline

theorem textual_lines? {fuel : ℕ} (h : d.root.Textual) (hlines : lines? fuel d cs = some d') :
    d'.root.Textual := by
  induction fuel generalizing d cs with
  | zero =>
    cases cs with
    | nil =>
      cases hlines
      exact h
    | cons c cs => cases hlines
  | succ fuel ih =>
    cases cs with
    | nil =>
      cases hlines
      exact h
    | cons c cs =>
      simp only [lines?, Option.bind_eq_bind, Option.bind_eq_some_iff, Prod.exists] at hlines
      obtain ⟨_, _, hline, hlines⟩ := hlines
      exact ih (textual_line? h hline) hlines

end lines

theorem textual_of_read? {s : String} {t : Toml} (h : read? s = some t) : Textual t := by
  obtain ⟨d, hd, rfl⟩ := Option.map_eq_some_iff.mp h
  exact textual_lines? Entries.textual_nil hd

end LambdaScript.Toml
