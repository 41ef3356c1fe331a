import LambdaScript.Codec.Config
import LambdaScript.Proofs.Codec.Fuel

/-! # The forms of documents

Which parts of a document are structures with named fields, which are cases of several, which are
lists or maps, and which are read as a whole. Fields may have a default, given here as the document
that a missing field stands for.
-/

namespace LambdaScript

/-- What is written as an object with fields: structures, and the payloads of cases that consist of
several parts. -/
inductive Struct where
  | lambda
  | construction
  | binding
  | member
  | method
  | record
  | slot
  | annotations
  | config
  | enumeration
  | access
  | index
  | initialization
  | binary
  | unary
  | call
  | conditional
  | invocation
  | typeTest

/-- What is written as one of several cases. -/
inductive Choice where
  | expr
  | value
  | castType
  | unaryOp
  | binaryOp
  | memberKind
  | scope

inductive Form : Type 1 where
  /-- Read as a whole. -/
  | leaf {α : Type} (decode : Json → Option α)
  /-- An array. -/
  | list (item : Form)
  /-- Null or a case. -/
  | optional (c : Choice)
  /-- An object with any keys. -/
  | map (c : Choice)
  | struct (s : Struct)
  | choice (c : Choice)

/-- A field of a structure; its default is the document that a missing field stands for. -/
structure Field where
  name : String
  form : Form
  default : Option Json

namespace Form

abbrev text : Form := leaf Json.asString?

abbrev type : Form := leaf TypeName.decode?

abbrev expr : Form := choice .expr

end Form

def Struct.fields : Struct → List Field
  | lambda => [⟨"params", .list .text, none⟩, ⟨"body", .expr, none⟩]
  | construction =>
    [⟨"ty", .type, none⟩, ⟨"members", .list .text, some (.arr [])⟩,
      ⟨"args", .list .expr, some (.arr [])⟩]
  | binding => [⟨"member", .struct member, none⟩, ⟨"value", .expr, none⟩]
  | member =>
    [⟨"declaring_type", .type, none⟩, ⟨"name", .text, none⟩,
      ⟨"kind", .choice .memberKind, some (.str "property")⟩]
  | method => [⟨"declaring_type", .type, none⟩, ⟨"name", .text, none⟩]
  | record => [⟨"ty", .type, none⟩, ⟨"members", .list (.struct slot), some (.arr [])⟩]
  | slot =>
    [⟨"name", .text, none⟩, ⟨"kind", .choice .memberKind, some (.str "property")⟩,
      ⟨"value", .optional .value, some .null⟩]
  | annotations =>
    [⟨"types", .map .scope, some (.obj [])⟩, ⟨"members", .map .scope, some (.obj [])⟩,
      ⟨"methods", .map .scope, some (.obj [])⟩]
  | config =>
    [⟨"inline", .leaf Json.asBool?, some (.bool false)⟩,
      ⟨"annotations", .struct annotations,
        some (.obj [("types", .obj []), ("members", .obj []), ("methods", .obj [])])⟩]
  | enumeration => [⟨"ty", .type, none⟩, ⟨"value", .leaf Json.asWord?, none⟩]
  | access => [⟨"target", .expr, none⟩, ⟨"member", .struct member, none⟩]
  | index => [⟨"target", .expr, none⟩, ⟨"args", .list .expr, none⟩]
  | initialization =>
    [⟨"new", .struct construction, none⟩, ⟨"bindings", .list (.struct binding), none⟩]
  | binary =>
    [⟨"op", .choice .binaryOp, none⟩, ⟨"left", .expr, none⟩, ⟨"right", .expr, none⟩]
  | unary => [⟨"op", .choice .unaryOp, none⟩, ⟨"operand", .expr, none⟩]
  | call =>
    [⟨"target", .optional .expr, some .null⟩, ⟨"method", .struct method, none⟩,
      ⟨"args", .list .expr, none⟩]
  | conditional =>
    [⟨"test", .expr, none⟩, ⟨"if_true", .expr, none⟩, ⟨"if_false", .optional .expr, some .null⟩]
  | invocation => [⟨"target", .expr, none⟩, ⟨"args", .list .expr, none⟩]
  | typeTest => [⟨"operand", .expr, none⟩, ⟨"ty", .type, none⟩]

namespace Choice

/-- The names of the cases without payload. -/
def plain : Choice → List String
  | expr => []
  | value => ["null"]
  | castType =>
    ["string", "char", "boolean", "integer", "float", "instant", "duration", "guid"]
  | unaryOp => UnaryOp.plain.map UnaryOp.name
  | binaryOp => BinaryOp.all.map BinaryOp.name
  | memberKind => ["field", "property"]
  | scope => ["global", "this", "on-this"]

/-- The cases with a payload. -/
def tagged : Choice → List (String × Form)
  | expr =>
    [("parameter", .text), ("member", .struct .access), ("index", .struct .index),
      ("new", .struct .construction), ("member_init", .struct .initialization),
      ("new_array", .list .expr), ("constant", .choice value), ("binary", .struct .binary),
      ("unary", .struct .unary), ("call", .struct .call), ("conditional", .struct .conditional),
      ("lambda", .struct .lambda), ("invoke", .struct .invocation),
      ("type_is", .struct .typeTest)]
  | value =>
    [("string", .text), ("char", .leaf Json.asChar?), ("boolean", .leaf Json.asBool?),
      ("integer", .leaf Json.asWord?), ("float", .leaf Json.asFloat?),
      ("instant", .leaf Instant.decode?), ("duration", .leaf Json.asWord?),
      ("enum", .struct .enumeration), ("array", .list (.choice value)),
      ("structured", .struct .record)]
  | castType =>
    [("enum", .type), ("nullable", .choice castType), ("array", .choice castType),
      ("object", .type)]
  | unaryOp =>
    [("convert", .choice castType), ("convert_checked", .choice castType), ("type_as", .type),
      ("unbox", .type)]
  | _ => []

end Choice

/-! ## Reading by form -/

def Struct.Result : Struct → Type
  | lambda => List String × Expr
  | construction => Construction Expr
  | binding => Binding Expr
  | member => Member
  | method => Method
  | record => Record Value
  | slot => Slot Value
  | annotations => Annotations
  | config => Config
  | enumeration => Value
  | access | index | initialization | binary | unary | call | conditional | invocation
  | typeTest => Expr

def Struct.decode : (s : Struct) → Json → Option s.Result
  | lambda => Lambda.decodeParts Expr.decode?
  | construction => Construction.decodeWith Expr.decode?
  | binding => Binding.decodeWith Expr.decode?
  | member => Member.decode?
  | method => Method.decode?
  | record => Record.decodeWith Value.decode?
  | slot => Slot.decodeWith Value.decode?
  | annotations => Annotations.decode?
  | config => Config.decode?
  | enumeration => Value.decodeEnumeration?
  | access => Expr.decodeCase Expr.decode? "member"
  | index => Expr.decodeCase Expr.decode? "index"
  | initialization => Expr.decodeCase Expr.decode? "member_init"
  | binary => Expr.decodeCase Expr.decode? "binary"
  | unary => Expr.decodeCase Expr.decode? "unary"
  | call => Expr.decodeCase Expr.decode? "call"
  | conditional => Expr.decodeCase Expr.decode? "conditional"
  | invocation => Expr.decodeCase Expr.decode? "invoke"
  | typeTest => Expr.decodeCase Expr.decode? "type_is"

namespace Choice

def Result : Choice → Type
  | expr => Expr
  | value => Value
  | castType => CastType
  | unaryOp => UnaryOp
  | binaryOp => BinaryOp
  | memberKind => MemberKind
  | scope => Scope

def decode : (c : Choice) → Json → Option c.Result
  | expr => Expr.decode?
  | value => Value.decode?
  | castType => CastType.decode?
  | unaryOp => UnaryOp.decode?
  | binaryOp => BinaryOp.decode?
  | memberKind => MemberKind.decode?
  | scope => Scope.decode?

end Choice

namespace Form

def Result : Form → Type
  | @leaf α _ => α
  | list item => List item.Result
  | optional c => Option c.Result
  | map c => List (String × c.Result)
  | struct s => s.Result
  | choice c => c.Result

def decode : (f : Form) → Json → Option f.Result
  | leaf decode => decode
  | list item => Json.asList? item.decode
  | optional c => Json.orNull? c.decode
  | map c => Json.asMap? c.decode
  | struct s => s.decode
  | choice c => c.decode

end Form

/-- Decodes a field, or its default if it is missing. -/
def Field.read (field : Field) (ms : List (String × Json)) : Option field.form.Result :=
  match field.default with
  | none => Json.required ms field.name field.form.decode
  | some d =>
    match ms.lookup field.name with
    | none => field.form.decode d
    | some j => field.form.decode j

namespace Field
variable {field : Field} {ms ms' : List (String × Json)}

theorem read_congr (h : ms.lookup field.name = ms'.lookup field.name) :
    field.read ms = field.read ms' := by
  simp only [read, Json.required, h]

theorem read_of_lookup {j : Json} (h : ms.lookup field.name = some j) :
    field.read ms = field.form.decode j := by
  obtain ⟨name, form, default⟩ := field
  cases default with
  | none => simp only [read, Json.required, h, Option.bind_some]
  | some d => simp only [read, h]

theorem read_of_missing {d : Json} (h : ms.lookup field.name = none)
    (hdefault : field.default = some d) : field.read ms = field.form.decode d := by
  simp only [read, hdefault, h]

end Field

namespace Struct
variable {s : Struct}

theorem nodup_names (s : Struct) : (s.fields.map Field.name).Nodup := by
  cases s <;> simp [fields]

/-- Defaults are documents of their fields. -/
theorem decode_default {field : Field} (hfield : field ∈ s.fields) {d : Json}
    (hdefault : field.default = some d) : ∃ a, field.form.decode d = some a := by
  have defaults : ∀ field ∈ s.fields,
      (field.default.map fun d => (field.form.decode d).isSome) ≠ some false := by
    cases s <;> simp only [fields, List.forall_mem_cons] <;> decide
  have hsome := defaults field hfield
  rw [hdefault, Option.map_some] at hsome
  exact Option.ne_none_iff_exists'.mp (by simpa using hsome)

/-- A structure is decoded from what its fields are decoded to. -/
theorem decode_retains {ms ms' : List (String × Json)}
    (h : ∀ field ∈ s.fields, Json.Retains (field.read ms) (field.read ms')) :
    Json.Retains (s.decode (.obj ms)) (s.decode (.obj ms')) := by
  cases s
  case lambda | binding | method | record | config | enumeration | access | index
      | initialization | unary | invocation | typeTest =>
    simp only [fields, List.forall_mem_cons] at h
    exact .bind h.1 fun _ _ => .bind h.2.1 fun _ _ => .refl _
  case construction | member | slot | annotations | binary | call | conditional =>
    simp only [fields, List.forall_mem_cons] at h
    exact .bind h.1 fun _ _ => .bind h.2.1 fun _ _ => .bind h.2.2.1 fun _ _ => .refl _

end Struct

namespace Choice

theorem decode_null (c : Choice) : c.decode .null = none := by
  cases c <;> rfl

/-- A case without payload is a string or an object with a null payload. -/
theorem decode_tag_null {c : Choice} {name : String} (h : name ∈ c.plain) :
    c.decode (.tag name .null) = c.decode (.str name) := by
  revert name
  cases c with
  | expr => simp [plain]
  | binaryOp => exact fun _ => rfl
  | scope => exact fun _ => rfl
  | value =>
    intro name h
    rw [List.mem_singleton.mp h]
    calc
      Value.decode? (.tag "null" .null) = some .null := rfl
      _ = Value.decode? (.str "null") := rfl
  | _ =>
    simp only [plain, UnaryOp.plain, List.map_cons, List.map_nil, List.forall_mem_cons]
    and_intros
    all_goals first | rfl | simp

/-- A case with a payload is decoded from what the payload is decoded to. -/
theorem decode_tag_retains {c : Choice} {name : String} {form : Form}
    (h : (name, form) ∈ c.tagged) {p p' : Json}
    (hp : Json.Retains (form.decode p) (form.decode p')) :
    Json.Retains (c.decode (.tag name p)) (c.decode (.tag name p')) := by
  suffices each : ∀ entry ∈ c.tagged, Json.Retains (entry.2.decode p) (entry.2.decode p') →
      Json.Retains (c.decode (.tag entry.1 p)) (c.decode (.tag entry.1 p')) from each _ h hp
  cases c with
  | expr =>
    have hcase (name : String) (p : Json) :
        decode expr (.tag name p) = Expr.decodeCase Expr.decode? name p := Expr.decode?_tag name p
    simp only [hcase, tagged, List.forall_mem_cons]
    and_intros
    all_goals first
      | exact fun hp => hp
      | exact fun hp => hp.map _
      | exact fun hp => hp.bind fun _ _ => .refl _
      | simp
  | value =>
    have hcase (name : String) (p : Json) :
        decode value (.tag name p) = Value.decodeCase Value.decode? (name, some p) :=
      Value.decode?_eq _
    simp only [hcase, tagged, List.forall_mem_cons]
    and_intros
    all_goals first | exact fun hp => hp | exact fun hp => hp.map _ | simp
  | castType =>
    have hcase (name : String) (p : Json) :
        decode castType (.tag name p) = CastType.decodeCase CastType.decode? (name, some p) :=
      CastType.decode?_eq _
    simp only [hcase, tagged, List.forall_mem_cons]
    and_intros
    all_goals first | exact fun hp => hp.map _ | simp
  | unaryOp =>
    simp only [tagged, List.forall_mem_cons]
    and_intros
    all_goals first | exact fun hp => hp.map _ | simp
  | _ => simp [tagged]

end Choice
end LambdaScript
