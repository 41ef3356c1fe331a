import LambdaScript.Config.Load
import LambdaScript.Proofs.Toml.RoundTrip

/-! # Configurations that can be loaded

A configuration is loaded from a file exactly if it annotates no name twice: such a configuration
is loaded from the text that is written for it, and no table of a file has a key twice, whether a
table of annotations is written as a table or as an array of its parts.
-/

namespace LambdaScript

/-- No name is annotated twice. -/
structure Annotations.Distinct (a : Annotations) : Prop where
  types : (a.types.map Prod.fst).Nodup
  members : (a.members.map Prod.fst).Nodup
  methods : (a.methods.map Prod.fst).Nodup

/-! ## Configurations that are loaded -/

theorem ScopeMap.distinct_of_ofToml? {v : Toml} (hv : v.Textual) {map : ScopeMap}
    (h : ofToml? v = some map) : (map.map Prod.fst).Nodup := by
  cases hv with
  | table distinct parts => rwa [Keyed.keys_mapM h]
  | _ => cases h

theorem ScopeMap.distinct_of_ofEntries? {entries : List (String × Toml)}
    (hentries : ∀ e ∈ entries, e.2.Textual) {key : String} {map : ScopeMap}
    (h : ofEntries? entries key = some map) : (map.map Prod.fst).Nodup := by
  rw [ofEntries?] at h
  split at h
  · cases h
    exact List.nodup_nil
  · next v hv =>
    exact distinct_of_ofToml? (hentries (key, v) (Keyed.mem_of_lookup_eq_some hv)) h

/-- The parts of a table of annotations that is read can have a text themselves. -/
theorem Annotations.textual_of_entries? {v : Toml} (hv : v.Textual)
    {entries : List (String × Toml)} (h : entries? v = some entries) :
    ∀ e ∈ entries, e.2.Textual := by
  cases hv with
  | table distinct parts =>
    cases h
    exact parts
  | array parts =>
    cases h
    intro e he
    exact parts e.2 (List.of_mem_zip he).2
  | moment hmoment =>
    cases h
    simp
  | _ => cases h

theorem Annotations.distinct_of_ofToml? {v : Toml} (hv : v.Textual) {a : Annotations}
    (h : ofToml? v = some a) : a.Distinct := by
  simp only [ofToml?, Option.bind_eq_bind, Option.bind_eq_some_iff, Option.pure_def,
    Option.some.injEq] at h
  obtain ⟨entries, hentries, types, htypes, members, hmembers, methods, hmethods, rfl⟩ := h
  have hparts := textual_of_entries? hv hentries
  exact ⟨ScopeMap.distinct_of_ofEntries? hparts htypes,
    ScopeMap.distinct_of_ofEntries? hparts hmembers,
    ScopeMap.distinct_of_ofEntries? hparts hmethods⟩

namespace Config

theorem distinct_of_ofToml? {v : Toml} (hv : v.Textual) {c : Config} (h : ofToml? v = some c) :
    c.annotations.Distinct := by
  cases hv with
  | @table entries distinct parts =>
    simp only [ofToml?, Option.bind_eq_bind, Option.bind_eq_some_iff] at h
    obtain ⟨inline, -, h⟩ := h
    split at h
    · cases h
      exact ⟨List.nodup_nil, List.nodup_nil, List.nodup_nil⟩
    · next v hv =>
      obtain ⟨a, ha, heq⟩ := Option.bind_eq_some_iff.mp h
      cases heq
      exact Annotations.distinct_of_ofToml?
        (parts ("annotations", v) (Keyed.mem_of_lookup_eq_some hv)) ha
  | _ => cases h

end Config

/-! ## Texts of configurations -/

def ScopeMap.toToml (map : ScopeMap) : Toml := .table (map.map fun e => (e.1, .string e.2.name))

def Annotations.toToml (a : Annotations) : Toml :=
  .table [("types", a.types.toToml), ("members", a.members.toToml), ("methods", a.methods.toToml)]

/-- The entries of the table of a configuration. -/
def Config.entries (c : Config) : List (String × Toml) :=
  [("inline", .boolean c.inline), ("annotations", c.annotations.toToml)]

def Config.text (c : Config) : String := Toml.writeLines c.entries

theorem ScopeMap.ofToml?_toToml (map : ScopeMap) : ofToml? map.toToml = some map := by
  simp only [toToml, ofToml?]
  induction map with
  | nil => rfl
  | cons e map ih =>
    obtain ⟨key, scope⟩ := e
    have hscope : Scope.ofToml? (.string scope.name) = some scope := by cases scope <;> rfl
    simp [ih, hscope]

theorem Annotations.ofToml?_toToml (a : Annotations) : ofToml? a.toToml = some a := by
  change (ScopeMap.ofToml? a.types.toToml).bind _ = _
  rw [ScopeMap.ofToml?_toToml]
  change (ScopeMap.ofToml? a.members.toToml).bind _ = _
  rw [ScopeMap.ofToml?_toToml]
  change (ScopeMap.ofToml? a.methods.toToml).bind _ = _
  rw [ScopeMap.ofToml?_toToml]
  rfl

theorem Config.ofToml?_entries (c : Config) : ofToml? (.table c.entries) = some c := by
  change (Annotations.ofToml? c.annotations.toToml).bind _ = _
  rw [Annotations.ofToml?_toToml]
  rfl

theorem ScopeMap.textual_toToml {map : ScopeMap} (distinct : (map.map Prod.fst).Nodup) :
    map.toToml.Textual := by
  apply Toml.Textual.table
  · rw [List.map_map]
    exact distinct
  · rw [List.forall_mem_map]
    exact fun e _ => .string e.2.name

theorem Annotations.textual_toToml {a : Annotations} (h : a.Distinct) : a.toToml.Textual := by
  apply Toml.Textual.table (by simp)
  simpa using ⟨ScopeMap.textual_toToml h.types, ScopeMap.textual_toToml h.members,
    ScopeMap.textual_toToml h.methods⟩

theorem Config.textual_entries {c : Config} (h : c.annotations.Distinct) :
    Toml.Textual (.table c.entries) := by
  apply Toml.Textual.table (by simp [entries])
  simpa [entries] using ⟨.boolean c.inline, Annotations.textual_toToml h⟩

theorem ScopeMap.nesting_toToml (map : ScopeMap) : map.toToml.nesting = 1 := by
  have hentries : Toml.nestingEntries (map.map fun e => (e.1, .string e.2.name)) = 0 := by
    induction map with
    | nil => rfl
    | cons e map ih =>
      rw [List.map_cons, Toml.nestingEntries, ih]
      rfl
  rw [toToml, Toml.nesting, hentries]

theorem Config.nesting_entries (c : Config) : ∀ e ∈ c.entries, e.2.nesting ≤ Toml.maxDepth := by
  have hannotations : c.annotations.toToml.nesting = 2 := by
    simp [Annotations.toToml, Toml.nesting, Toml.nestingEntries, ScopeMap.nesting_toToml]
  simp [entries, hannotations, Toml.nesting, Toml.maxDepth]

namespace Config

theorem parse_text {c : Config} (h : c.annotations.Distinct) : parse c.text = .ok c := by
  rw [parse, text, Toml.read?_writeLines (textual_entries h) c.nesting_entries, Option.bind_some,
    ofToml?_entries]

theorem parse_eq_ok_iff {source : String} {c : Config} :
    parse source = .ok c ↔ (Toml.read? source).bind ofToml? = some c := by
  rw [parse]
  cases (Toml.read? source).bind ofToml? <;> simp

/-- The configurations that have a text are those that annotate no name twice. -/
theorem exists_parse_iff {c : Config} :
    (∃ source, parse source = .ok c) ↔ c.annotations.Distinct := by
  constructor
  · rintro ⟨source, h⟩
    obtain ⟨v, hv, hc⟩ := Option.bind_eq_some_iff.mp (parse_eq_ok_iff.mp h)
    exact distinct_of_ofToml? (Toml.textual_of_read? hv) hc
  · intro h
    exact ⟨c.text, parse_text h⟩

theorem load_toUTF8 (source : String) : load (some source.toUTF8) = parse source := by
  have hread : String.fromUTF8? source.toUTF8 = some source := dif_pos source.isValidUTF8
  rw [load, hread]

/-- The configurations that can be loaded are those that annotate no name twice. -/
theorem exists_load_iff {c : Config} :
    (∃ content, load content = .ok c) ↔ c.annotations.Distinct := by
  constructor
  · rintro ⟨content, h⟩
    cases content with
    | none => cases h
    | some bytes =>
      rw [load] at h
      split at h
      · exact exists_parse_iff.mp ⟨_, h⟩
      · cases h
  · intro h
    exact ⟨some c.text.toUTF8, (load_toUTF8 c.text).trans (parse_text h)⟩

end Config
end LambdaScript
