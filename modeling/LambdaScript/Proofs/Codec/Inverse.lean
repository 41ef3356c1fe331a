import LambdaScript.Proofs.Codec.Expr

/-! # Decoding and encoding are inverse

What is decoded from a text is encoded again, and everything that documents can express is decoded
from its encoding. Encodings write every field; a field that may be missing is decoded as if its
default were written.
-/

namespace LambdaScript

/-- Encoding and decoding are inverse: on what is decoded from the text of a document, and on
everything that documents can express. -/
structure Inverse {α : Type} (encode : α → Option Json) (decode : Json → Option α)
    (Expressible : α → Prop) : Prop where
  reread : ∀ s j a, Json.read? s = some j → decode j = some a →
    ∃ k, encode a = some k ∧ decode k = some a
  retained : ∀ a, Expressible a → ∃ k, encode a = some k ∧ decode k = some a

theorem inverse_of_yields {α : Type} {encode : α → Option Json} {decode : Json → Option α}
    {Expressible : α → Prop} (yields : Json.Yields decode Expressible)
    (retained : ∀ a, Expressible a → ∃ k, encode a = some k ∧ decode k = some a) :
    Inverse encode decode Expressible where
  reread _ j a hs ha := retained a (yields j a (Json.inRange_of_read? hs) ha)
  retained := retained

/-- Total encodings of things that documents can always express. -/
theorem inverse_of_total {α : Type} {encode : α → Json} {decode : Json → Option α}
    (decode_encode : ∀ a, decode (encode a) = some a) :
    Inverse (fun a => some (encode a)) decode fun _ => True :=
  inverse_of_yields (fun _ _ _ _ => trivial) fun a _ => ⟨encode a, rfl, decode_encode a⟩

theorem Value.inverse : Inverse encode decode? Expressible := by
  refine inverse_of_yields (fun j => yields_decodeWithin j.depth j) fun v hv => ?_
  obtain ⟨k, hk, hencodes⟩ := exists_encodes hv
  exact ⟨k, hk, hencodes.decodes k.depth (Nat.le_refl _)⟩

theorem Expr.inverse : Inverse encode decode? Expressible := by
  refine inverse_of_yields (fun j => yields_decodeWithin j.depth j) fun e he => ?_
  obtain ⟨k, hk, hencodes⟩ := exists_encodes he
  exact ⟨k, hk, hencodes.decodes k.depth (Nat.le_refl _)⟩

theorem Lambda.inverse : Inverse encode decode? fun f => f.body.Expressible := by
  refine inverse_of_yields (fun j f hj h => ?_) fun f hf => ?_
  · simp only [decode?, Option.bind_eq_bind, Option.bind_eq_some_iff, Option.pure_def,
      Option.some.injEq, Prod.exists] at h
    obtain ⟨params, body, hparts, rfl⟩ := h
    exact decodeParts_yields (Expr.yields_decodeWithin j.depth) j _ hj hparts
  · obtain ⟨k, hk, hencodes⟩ := Expr.exists_encodes hf
    refine ⟨encodeParts f.params k, by rw [encode, hk]; rfl, ?_⟩
    have hdepth : k.depth ≤ (encodeParts f.params k).depth := by
      simp only [encodeParts, Json.depth, Json.depthMembers]
      omega
    rw [decode?, decodeParts_encodeParts, hencodes.decodes _ hdepth]
    rfl

/-- A member that holds null and one that cannot be read have different encodings. -/
theorem Value.encode_null_ne_unreadable {type : TypeName} {before after : List (Slot Value)}
    {name : String} {kind : MemberKind}
    (h : Expressible (record ⟨type, before ++ ⟨name, kind, none⟩ :: after⟩)) :
    encode (record ⟨type, before ++ ⟨name, kind, some null⟩ :: after⟩) ≠
      encode (record ⟨type, before ++ ⟨name, kind, none⟩ :: after⟩) := by
  have hnull : Expressible (record ⟨type, before ++ ⟨name, kind, some null⟩ :: after⟩) := by
    cases h with
    | record parts =>
    refine .record fun s hs v hv => ?_
    rcases List.mem_append.mp hs with hs | hs
    · exact parts s (by simp [hs]) v hv
    · rcases List.mem_cons.mp hs with rfl | hs
      · cases hv
        exact .null
      · exact parts s (by simp [hs]) v hv
  obtain ⟨k, hk, hdecode⟩ := Value.inverse.retained _ h
  obtain ⟨l, hl, hdecode'⟩ := Value.inverse.retained _ hnull
  intro heq
  rw [hk, hl] at heq
  cases heq
  rw [hdecode] at hdecode'
  simp at hdecode'

/-- A missing field is decoded as if its default were written: `fields` finds the fields of a
document, which may be an object or an array. -/
def Defaulted {α : Type} (fields : Json → Option (List (String × Json)))
    (decode : Json → Option α) (name : String) (default : Json) : Prop :=
  ∀ j fs, fields j = some fs → fs.lookup name = none →
    decode j = decode (.obj (fs ++ [(name, default)]))

section
variable {α : Type} {fs : List (String × Json)} {name other : String} {j : Json}
  {decode : Json → Option α}

theorem Json.lookup_append_of_ne (h : other ≠ name) :
    (fs ++ [(name, j)]).lookup other = fs.lookup other := by
  simp [List.lookup_append, List.lookup_cons, beq_eq_false_iff_ne.mpr h]

theorem Json.required_append (h : other ≠ name) :
    required (fs ++ [(name, j)]) other decode = required fs other decode := by
  rw [required, required, lookup_append_of_ne h]

theorem Json.withDefault_append (h : other ≠ name) (default : α) :
    withDefault (fs ++ [(name, j)]) other default decode = withDefault fs other default decode := by
  rw [withDefault, withDefault, lookup_append_of_ne h]

theorem Json.withDefault_append_self (missing : fs.lookup name = none) {default : α}
    (h : decode j = some default) :
    withDefault (fs ++ [(name, j)]) name default decode = withDefault fs name default decode := by
  simp [withDefault, List.lookup_append, missing, h]

/-- Decoders that look at the fields of a document only need their fields to be compared. -/
theorem defaulted_of_fields {fields : Json → Option (List (String × Json))}
    {body : List (String × Json) → Option α} (object : ∀ ms, fields (.obj ms) = some ms)
    (decoded : ∀ k, decode k = (fields k).bind body)
    (h : ∀ fs, fs.lookup name = none → body (fs ++ [(name, j)]) = body fs) :
    Defaulted fields decode name j := by
  intro k fs hfs missing
  rw [decoded, decoded, hfs, object, Option.bind_some, Option.bind_some, h fs missing]

end

/-- The fields that may be missing, and their defaults. Values and expressions inside a structure
are decoded by any function. -/
structure Defaults : Prop where
  memberKind : Defaulted (Json.fields? ["declaring_type", "name", "kind"]) Member.decode? "kind"
    (MemberKind.encode .property)
  slotKind {α : Type} (decode : Json → Option α) :
    Defaulted (Json.fields? ["name", "kind", "value"]) (Slot.decodeWith decode) "kind"
      (MemberKind.encode .property)
  slotValue {α : Type} (decode : Json → Option α) :
    Defaulted (Json.fields? ["name", "kind", "value"]) (Slot.decodeWith decode) "value" .null
  recordMembers {α : Type} (decode : Json → Option α) :
    Defaulted (Json.fields? ["ty", "members"]) (Record.decodeWith decode) "members" (.arr [])
  constructionMembers {α : Type} (decode : Json → Option α) :
    Defaulted (Json.fields? ["ty", "members", "args"]) (Construction.decodeWith decode) "members"
      (.arr [])
  constructionArgs {α : Type} (decode : Json → Option α) :
    Defaulted (Json.fields? ["ty", "members", "args"]) (Construction.decodeWith decode) "args"
      (.arr [])
  callTarget (decode : Json → Option Expr) :
    Defaulted Json.objectFields? (Expr.decodeCase decode "call") "target" .null
  ifFalse (decode : Json → Option Expr) :
    Defaulted Json.objectFields? (Expr.decodeCase decode "conditional") "if_false" .null
  annotations (name : String) (part : name ∈ ["types", "members", "methods"]) :
    Defaulted (Json.fields? ["types", "members", "methods"]) Annotations.decode? name
      (ScopeMap.encode [])
  inline : Defaulted (Json.fields? ["inline", "annotations"]) Config.decode? "inline" (.bool false)
  configAnnotations : Defaulted (Json.fields? ["inline", "annotations"]) Config.decode?
    "annotations" (Annotations.encode {})

theorem defaults : Defaults where
  memberKind := by
    refine defaulted_of_fields (fun _ => rfl) (fun _ => rfl) fun fs missing => ?_
    simp [Json.required_append, Json.withDefault_append_self missing (MemberKind.decode?_encode _)]
  slotKind decode := by
    refine defaulted_of_fields (fun _ => rfl) (fun _ => rfl) fun fs missing => ?_
    simp [Json.required_append, Json.withDefault_append,
      Json.withDefault_append_self missing (MemberKind.decode?_encode _)]
  slotValue decode := by
    have hnull : Json.orNull? decode .null = some none := rfl
    refine defaulted_of_fields (fun _ => rfl) (fun _ => rfl) fun fs missing => ?_
    simp [Json.required_append, Json.withDefault_append, Json.withDefault_append_self missing hnull]
  recordMembers decode := by
    have hempty : Json.asList? (Slot.decodeWith decode) (.arr []) = some [] := rfl
    refine defaulted_of_fields (fun _ => rfl) (fun _ => rfl) fun fs missing => ?_
    simp [Json.required_append, Json.withDefault_append_self missing hempty]
  constructionMembers decode := by
    have hempty : Json.asList? Json.asString? (.arr []) = some [] := rfl
    refine defaulted_of_fields (fun _ => rfl) (fun _ => rfl) fun fs missing => ?_
    simp [Json.required_append, Json.withDefault_append,
      Json.withDefault_append_self missing hempty]
  constructionArgs decode := by
    have hempty : Json.asList? decode (.arr []) = some [] := rfl
    refine defaulted_of_fields (fun _ => rfl) (fun _ => rfl) fun fs missing => ?_
    simp [Json.required_append, Json.withDefault_append,
      Json.withDefault_append_self missing hempty]
  callTarget decode := by
    have hnull : Json.orNull? decode .null = some none := rfl
    refine defaulted_of_fields (fun _ => rfl) (fun _ => rfl) fun fs missing => ?_
    simp [Json.required_append, Json.withDefault_append_self missing hnull]
  ifFalse decode := by
    have hnull : Json.orNull? decode .null = some none := rfl
    refine defaulted_of_fields (fun _ => rfl) (fun _ => rfl) fun fs missing => ?_
    simp [Json.required_append, Json.withDefault_append_self missing hnull]
  annotations name part := by
    have hempty : ScopeMap.decode? (ScopeMap.encode []) = some [] := rfl
    refine defaulted_of_fields (fun _ => rfl) (fun _ => rfl) fun fs missing => ?_
    simp only [List.mem_cons, List.not_mem_nil, or_false] at part
    rcases part with rfl | rfl | rfl <;>
      simp [Json.withDefault_append, Json.withDefault_append_self missing hempty]
  inline := by
    have hfalse : Json.asBool? (.bool false) = some false := rfl
    refine defaulted_of_fields (fun _ => rfl) (fun _ => rfl) fun fs missing => ?_
    simp [Json.withDefault_append, Json.withDefault_append_self missing hfalse]
  configAnnotations := by
    refine defaulted_of_fields (fun _ => rfl) (fun _ => rfl) fun fs missing => ?_
    simp [Json.withDefault_append,
      Json.withDefault_append_self missing (Annotations.decode?_encode {})]

/-- Decoding and encoding are inverse for lambdas, expressions, values, conversion targets,
annotations and configurations. In particular a member that holds null and one that cannot be read
stay apart, and missing fields have their defaults. -/
theorem codec_inverse :
    Inverse Lambda.encode Lambda.decode? (fun f => f.body.Expressible) ∧
      Inverse Expr.encode Expr.decode? Expr.Expressible ∧
      Inverse Value.encode Value.decode? Value.Expressible ∧
      Inverse (fun t => some (CastType.encode t)) CastType.decode? (fun _ => True) ∧
      Inverse (fun a => some (Annotations.encode a)) Annotations.decode? (fun _ => True) ∧
      Inverse (fun c => some (Config.encode c)) Config.decode? (fun _ => True) ∧
      (∀ type before after name kind,
        Value.Expressible (.record ⟨type, before ++ ⟨name, kind, none⟩ :: after⟩) →
          Value.encode (.record ⟨type, before ++ ⟨name, kind, some .null⟩ :: after⟩) ≠
            Value.encode (.record ⟨type, before ++ ⟨name, kind, none⟩ :: after⟩)) ∧
      Defaults :=
  ⟨Lambda.inverse, Expr.inverse, Value.inverse, inverse_of_total CastType.decode?_encode,
    inverse_of_total Annotations.decode?_encode, inverse_of_total Config.decode?_encode,
    fun _ _ _ _ _ => Value.encode_null_ne_unreadable, defaults⟩

/-- A record with a leap second, a member that holds null or cannot be read, and a number. -/
def pauseValue (note : Option Value) : Value :=
  .record ⟨⟨"Pause"⟩,
    [⟨"Until", .field, some (.instant ⟨1483228799, 1500000000, by decide⟩)⟩,
      ⟨"Note", .property, note⟩, ⟨"Ratio", .property, some (.float (.ofInt (-3)))⟩]⟩

theorem pauseValue_expressible : (pauseValue none).Expressible := by
  have leap : Instant.Denotable ⟨1483228799, 1500000000, by decide⟩ :=
    Instant.denotable_iff.mpr (by decide)
  refine .record fun s hs v hv => ?_
  simp only [List.mem_cons, List.not_mem_nil, or_false] at hs
  rcases hs with rfl | rfl | rfl
  · cases hv
    exact .instant leap
  · cases hv
  · cases hv
    exact .float (by decide)

/-- The text of a record in which fields are missing and a number is an integer. -/
def pauseText : String :=
  "\x7b\"structured\":[\"Pause\",[[\"Note\"],[\"Ratio\",\"field\",\x7b\"float\":-3\x7d]]]\x7d"

theorem pauseText_decoded : ((Json.read? pauseText).bind Value.decode?).isSome = true := by
  decide +kernel

theorem codec_inverse_pause :
    (∃ j v k, Json.read? pauseText = some j ∧ Value.decode? j = some v ∧ v.encode = some k ∧
        Value.decode? k = some v) ∧
      (pauseValue none).Expressible ∧
      (∃ k, (pauseValue none).encode = some k ∧ Value.decode? k = some (pauseValue none)) ∧
      (pauseValue (some .null)).encode ≠ (pauseValue none).encode := by
  obtain ⟨-, -, value, -, -, -, apart, -⟩ := codec_inverse
  obtain ⟨v, hv⟩ := Option.isSome_iff_exists.mp pauseText_decoded
  obtain ⟨j, hj, hv⟩ := Option.bind_eq_some_iff.mp hv
  obtain ⟨k, hk, hdecode⟩ := value.reread pauseText j v hj hv
  exact ⟨⟨j, v, k, hj, hv, hk, hdecode⟩, pauseValue_expressible,
    value.retained _ pauseValue_expressible, apart _ [_] [_] _ _ pauseValue_expressible⟩

end LambdaScript
