import LambdaScript.Config.Schema
import LambdaScript.Proofs.Codec.Inverse
import LambdaScript.Proofs.Keyed

/-! # What the schema accepts

The part of JSON schema that the schema of configurations uses: a keyword either restricts the
documents that meet a schema or only describes them. Every encoded configuration meets the schema,
and every document that meets it is decoded. The defaults that the schema shows are those of the
decoder: a missing property may as well have its default.
-/

namespace LambdaScript

namespace Json.Schema

def keywords : Json → List (String × Json)
  | obj keywords => keywords
  | _ => []

/-- Whether a document has the type with a given name. -/
def isOfType (name : String) : Json → Bool
  | null => name = "null"
  | bool _ => name = "boolean"
  | int _ => name = "integer" || name = "number"
  | float _ => name = "number"
  | str _ => name = "string"
  | arr _ => name = "array"
  | obj _ => name = "object"

/-- Whether a document is a given text. Other constants do not occur. -/
def isText (s : String) : Json → Bool
  | str t => s = t
  | _ => false

/-- The schema that a reference into the definitions of a document names. -/
def target? (root : Json) (path : String) : Option Json :=
  match root.get? "$defs" with
  | some (obj defs) => (defs.find? fun d => "#/$defs/" ++ d.1 = path).map Prod.snd
  | _ => none

def property? (schema : Json) (key : String) : Option Json :=
  (schema.get? "properties").bind (·.get? key)

def default? (schema : Json) (key : String) : Option Json :=
  (property? schema key).bind (·.get? "default")

/-- Whether the value of a member meets the schema of its property, if there is one. -/
def suits (check : Json → Json → Bool) (schema : Json) (m : String × Json) : Bool :=
  match property? schema m.1 with
  | some part => check part m.2
  | none => true

theorem suits_of_some {check : Json → Json → Bool} {schema part : Json} {m : String × Json}
    (h : property? schema m.1 = some part) : suits check schema m = check part m.2 := by
  rw [suits, h]

theorem suits_of_none {check : Json → Json → Bool} {schema : Json} {m : String × Json}
    (h : property? schema m.1 = none) : suits check schema m = true := by
  rw [suits, h]

/-- Whether a document passes a keyword of a schema, where `check` compares documents with the
schemas inside it. Keywords that are not listed describe only. -/
def passes (root : Json) (check : Json → Json → Bool) (schema j : Json) : String × Json → Bool
  | ("type", str name) => isOfType name j
  | ("const", str s) => isText s j
  | ("oneOf", arr schemas) => schemas.countP (check · j) = 1
  | ("$ref", str path) => match target? root path with
    | some schema => check schema j
    | none => false
  | ("properties", _) => (keywords j).all (suits check schema)
  | ("additionalProperties", others) =>
    (keywords j).all fun m => (property? schema m.1).isSome || check others m.2
  | _ => true

/-- Whether a document meets a schema, with at most `fuel` schemas inside each other. -/
def meets (root : Json) : ℕ → Json → Json → Bool
  | 0, _, _ => false
  | fuel + 1, schema, j => (keywords schema).all (passes root (meets root fuel) schema j)

theorem meets_succ (root : Json) (fuel : ℕ) (schema j : Json) :
    meets root (fuel + 1) schema j =
      (keywords schema).all (passes root (meets root fuel) schema j) := rfl

theorem passes_describing {keyword : String} (h : keyword ∉ ["type", "const", "oneOf", "$ref",
    "properties", "additionalProperties"]) (root : Json) (check : Json → Json → Bool)
    (schema j value : Json) : passes root check schema j (keyword, value) = true := by
  unfold passes
  split <;> simp_all

end Json.Schema

namespace Config.Schema
open Json.Schema
variable {root : Json} (fuel : ℕ)

/-! ## Scopes -/

theorem meets_scope (name description : String) (j : Json) :
    meets root (fuel + 1) (scope name description) j = isText name j := by
  rw [meets_succ, scope, keywords]
  cases j <;> simp [passes, isText, isOfType]

theorem exists_encode_iff (t : String) :
    (∃ s : Scope, Json.str t = s.encode) ↔ t = "global" ∨ t = "this" ∨ t = "on-this" := by
  constructor
  · rintro ⟨s, h⟩
    cases h
    cases s <;> decide
  · rintro (rfl | rfl | rfl)
    · exact ⟨.global, rfl⟩
    · exact ⟨.this, rfl⟩
    · exact ⟨.onThis, rfl⟩

/-- The names of the three scopes are different, so a text meets at most one of their schemas. -/
theorem meets_scopes (j : Json) :
    meets root (fuel + 2) scopes j = true ↔ ∃ s : Scope, j = s.encode := by
  have hcount : meets root (fuel + 2) scopes j =
      decide (["global", "this", "on-this"].countP (isText · j) = 1) := by
    rw [meets_succ, scopes, keywords]
    simp [passes, List.countP_cons, meets_scope]
  rw [hcount, decide_eq_true_eq]
  cases j with
  | str t =>
    rw [exists_encode_iff]
    by_cases hglobal : t = "global"
    · subst hglobal
      decide
    · by_cases hthis : t = "this"
      · subst hthis
        decide
      · simp [isText, eq_comm, hglobal, hthis]
  | _ => simp [isText, Scope.encode]

/-! ## Maps and tables -/

theorem passes_reference {name : String} {target : Json}
    (h : target? root ("#/$defs/" ++ name) = some target) (check : Json → Json → Bool)
    (part j : Json) : passes root check part j ("$ref", reference name) = check target j := by
  simp [passes, reference, h]

theorem target?_scopes : target? schema ("#/$defs/" ++ "ContextAnnotation") = some scopes := rfl

theorem target?_annotations :
    target? schema ("#/$defs/" ++ "AnnotationTable") = some annotations := rfl

theorem forall_exists_encode_iff {members : List (String × Json)} :
    (∀ m ∈ members, ∃ s : Scope, m.2 = s.encode) ↔
      ∃ map : ScopeMap, Json.obj members = map.encode := by
  simp only [ScopeMap.encode, Json.obj.injEq]
  constructor
  · intro h
    induction members with
    | nil => exact ⟨[], rfl⟩
    | cons m members ih =>
      rw [List.forall_mem_cons] at h
      obtain ⟨s, hs⟩ := h.1
      obtain ⟨map, rfl⟩ := ih h.2
      exact ⟨(m.1, s) :: map, by rw [List.map_cons, ← hs]⟩
  · rintro ⟨map, rfl⟩
    rw [List.forall_mem_map]
    exact fun e _ => ⟨e.2, rfl⟩

/-- The documents that meet the schema of a map are the encodings of maps. -/
theorem meets_scopeMap (description : String) (j : Json) :
    meets schema (fuel + 4) (scopeMap description) j = true ↔ ∃ map : ScopeMap, j = map.encode := by
  have hothers (k : Json) : meets schema (fuel + 3)
      (.obj [("$ref", reference "ContextAnnotation")]) k = true ↔ ∃ s : Scope, k = s.encode := by
    rw [meets_succ, keywords, ← @meets_scopes schema fuel k]
    simp [passes_reference target?_scopes]
  have hkey (key : String) : property? (scopeMap description) key = none := by
    simp [property?, scopeMap, Json.get?, List.lookup_cons]
  rw [meets_succ]
  change ([_, _, _, ("type", .str "object")] : List (String × Json)).all _ = true ↔ _
  simp (disch := decide) only [List.all_cons, passes_describing]
  cases j with
  | obj members =>
    rw [← forall_exists_encode_iff]
    simp [passes, hothers, hkey, isOfType, keywords]
  | _ => simp [passes, isOfType, ScopeMap.encode]

end Config.Schema

/-- A table of annotations: a member with the name of a part encodes a map. -/
def Annotations.Described (j : Json) : Prop :=
  ∃ members, j = .obj members ∧
    ∀ m ∈ members, m.1 ∈ ["types", "members", "methods"] → ∃ map : ScopeMap, m.2 = map.encode

/-- A configuration: its mode is a truth value, and its annotations are a table. -/
def Config.Described (j : Json) : Prop :=
  ∃ members, j = .obj members ∧ ∀ m ∈ members,
    (m.1 = "inline" → ∃ b, m.2 = .bool b) ∧ (m.1 = "annotations" → Annotations.Described m.2)

namespace Config.Schema
open Json.Schema
variable (fuel : ℕ)

theorem property?_annotations {key : String} (h : key ∈ ["types", "members", "methods"]) :
    ∃ description, property? annotations key = some (scopeMap description) := by
  simp only [List.mem_cons, List.not_mem_nil, or_false] at h
  rcases h with rfl | rfl | rfl
  · exact ⟨_, rfl⟩
  · exact ⟨_, rfl⟩
  · exact ⟨_, rfl⟩

theorem property?_annotations_eq_none {key : String}
    (h : key ∉ ["types", "members", "methods"]) : property? annotations key = none := by
  simp only [List.mem_cons, List.not_mem_nil, or_false, not_or] at h
  simp [property?, annotations, Json.get?, List.lookup_cons, beq_eq_false_iff_ne.mpr, h]

theorem suits_annotations (m : String × Json) :
    suits (meets schema (fuel + 4)) annotations m = true ↔
      (m.1 ∈ ["types", "members", "methods"] → ∃ map : ScopeMap, m.2 = map.encode) := by
  by_cases hkey : m.1 ∈ ["types", "members", "methods"]
  · obtain ⟨description, hproperty⟩ := property?_annotations hkey
    rw [suits_of_some hproperty, meets_scopeMap]
    exact (imp_iff_right hkey).symm
  · rw [suits_of_none (property?_annotations_eq_none hkey)]
    simp [hkey]

theorem meets_annotations (j : Json) :
    meets schema (fuel + 5) annotations j = true ↔ Annotations.Described j := by
  rw [meets_succ]
  change ([("properties", _), ("type", .str "object")] : List (String × Json)).all _ = true ↔ _
  cases j with
  | obj members =>
    simp only [List.all_cons, List.all_nil, passes, isOfType, decide_true, Bool.and_true, keywords,
      List.all_eq_true, suits_annotations, Annotations.Described, Json.obj.injEq, exists_eq_left']
  | _ => simp [Annotations.Described, passes, isOfType]

/-! ## Configurations -/

theorem suits_schema (m : String × Json) :
    suits (meets schema (fuel + 6)) schema m = true ↔
      (m.1 = "inline" → ∃ b, m.2 = .bool b) ∧
        (m.1 = "annotations" → Annotations.Described m.2) := by
  obtain ⟨key, k⟩ := m
  by_cases hannotations : key = "annotations"
  · subst hannotations
    rw [suits_of_some rfl, meets_succ, ← meets_annotations fuel k]
    change ([("$ref", reference "AnnotationTable"), ("default", _), ("description", _)] :
      List (String × Json)).all _ = true ↔ _
    simp (disch := decide) only [List.all_cons, List.all_nil, passes_describing,
      passes_reference target?_annotations, Bool.and_true]
    simp
  · by_cases hinline : key = "inline"
    · subst hinline
      rw [suits_of_some rfl, meets_succ]
      change ([("default", _), ("description", _), ("type", .str "boolean")] :
        List (String × Json)).all _ = true ↔ _
      simp (disch := decide) only [List.all_cons, List.all_nil, passes_describing]
      cases k <;> simp [passes, isOfType]
    · have hnone : property? schema key = none := by
        simp [property?, schema, properties, Json.get?, List.lookup_cons, beq_eq_false_iff_ne.mpr,
          hannotations, hinline]
      rw [suits_of_none hnone]
      simp [hannotations, hinline]

theorem meets_schema (j : Json) : meets schema (fuel + 7) schema j = true ↔ Described j := by
  rw [meets_succ]
  change ([("$defs", _), ("$schema", _), ("properties", _), ("title", _),
    ("type", .str "object")] : List (String × Json)).all _ = true ↔ _
  simp (disch := decide) only [List.all_cons, List.all_nil, passes_describing]
  cases j with
  | obj members =>
    simp only [passes, isOfType, decide_true, Bool.and_true, Bool.true_and, keywords,
      List.all_eq_true, suits_schema, Described, Json.obj.injEq, exists_eq_left']
  | _ => simp [Described, passes, isOfType]

/-! ## Decoding -/

theorem described_encode (c : Config) : Described c.encode := by
  have hannotations : Annotations.Described c.annotations.encode := by
    refine ⟨_, rfl, ?_⟩
    simp only [List.forall_mem_cons, List.not_mem_nil, false_implies, implies_true, and_true]
    exact ⟨fun _ => ⟨_, rfl⟩, fun _ => ⟨_, rfl⟩, fun _ => ⟨_, rfl⟩⟩
  refine ⟨_, rfl, ?_⟩
  simpa using hannotations

theorem exists_withDefault {α : Type} {decode : Json → Option α} {members : List (String × Json)}
    {key : String} {default : α} (h : ∀ m ∈ members, m.1 = key → ∃ a, decode m.2 = some a) :
    ∃ a, Json.withDefault members key default decode = some a := by
  rw [Json.withDefault]
  split
  · exact ⟨default, rfl⟩
  · next j hj => exact h (key, j) (Keyed.mem_of_lookup_eq_some hj) rfl

theorem exists_decode?_annotations {j : Json} (h : Annotations.Described j) :
    ∃ a, Annotations.decode? j = some a := by
  obtain ⟨members, rfl, h⟩ := h
  have hpart {key : String} (hkey : key ∈ ["types", "members", "methods"]) :
      ∃ map, Json.withDefault members key [] ScopeMap.decode? = some map := by
    apply exists_withDefault
    rintro m hm rfl
    obtain ⟨map, hmap⟩ := h m hm hkey
    exact ⟨map, hmap ▸ ScopeMap.decode?_encode map⟩
  obtain ⟨types, htypes⟩ := hpart (by decide : "types" ∈ _)
  obtain ⟨maps, hmembers⟩ := hpart (by decide : "members" ∈ _)
  obtain ⟨methods, hmethods⟩ := hpart (by decide : "methods" ∈ _)
  exact ⟨⟨types, maps, methods⟩, by
    simp [Annotations.decode?, Json.fields?, htypes, hmembers, hmethods]⟩

theorem exists_decode? {j : Json} (h : Described j) : ∃ c, decode? j = some c := by
  obtain ⟨members, rfl, h⟩ := h
  have hinline : ∃ b, Json.withDefault members "inline" false Json.asBool? = some b := by
    apply exists_withDefault
    intro m hm hkey
    obtain ⟨b, hb⟩ := (h m hm).1 hkey
    exact ⟨b, by rw [hb, Json.asBool?]⟩
  have hannotations :
      ∃ a, Json.withDefault members "annotations" {} Annotations.decode? = some a := by
    apply exists_withDefault
    intro m hm hkey
    exact exists_decode?_annotations ((h m hm).2 hkey)
  obtain ⟨b, hb⟩ := hinline
  obtain ⟨a, ha⟩ := hannotations
  exact ⟨⟨b, a⟩, by simp [decode?, Json.fields?, hb, ha]⟩

/-- Encoded configurations meet the schema, and what meets the schema is decoded. -/
theorem schema_sound :
    (∀ c : Config, meets schema (fuel + 7) schema c.encode = true) ∧
      ∀ j, meets schema (fuel + 7) schema j = true → ∃ c, decode? j = some c := by
  constructor
  · exact fun c => (meets_schema fuel _).mpr (described_encode c)
  · exact fun j h => exists_decode? ((meets_schema fuel j).mp h)

/-- A property that is missing may as well have the default that the schema shows. -/
theorem decode?_default {key : String} {d : Json} (h : default? schema key = some d)
    {members : List (String × Json)} (missing : members.lookup key = none) :
    decode? (.obj (members ++ [(key, d)])) = decode? (.obj members) := by
  by_cases hannotations : key = "annotations"
  · subst hannotations
    cases h
    have hempty : Annotations.decode? (.obj [("members", .obj []), ("methods", .obj []),
        ("types", .obj [])]) = some {} := by decide
    simp [decode?, Json.fields?, Json.withDefault_append,
      Json.withDefault_append_self missing hempty]
  · by_cases hinline : key = "inline"
    · subst hinline
      cases h
      have hfalse : Json.asBool? (.bool false) = some false := rfl
      simp [decode?, Json.fields?, Json.withDefault_append,
        Json.withDefault_append_self missing hfalse]
    · have hnone : default? schema key = none := by
        simp [default?, property?, schema, properties, Json.get?, List.lookup_cons,
          beq_eq_false_iff_ne.mpr, hannotations, hinline]
      rw [hnone] at h
      cases h

end Config.Schema
end LambdaScript
