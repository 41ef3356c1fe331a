import LambdaScript.Json.Decode
import LambdaScript.Operator

/-! # JSON forms of declarations, conversion targets and operators -/

namespace LambdaScript

def TypeName.encode (t : TypeName) : Json := .str t.text

def TypeName.decode? (j : Json) : Option TypeName := j.asString?.map TypeName.mk

def MemberKind.name : MemberKind → String
  | field => "field"
  | property => "property"

def MemberKind.encode (k : MemberKind) : Json := .str k.name

def MemberKind.decode? (j : Json) : Option MemberKind := do
  match ← j.case? with
  | ("field", p) => Json.plain p field
  | ("property", p) => Json.plain p property
  | _ => none

def Member.encode (m : Member) : Json :=
  .obj [("declaring_type", m.owner.encode), ("name", .str m.name), ("kind", m.kind.encode)]

/-- Decodes a member; it is a property if its kind is missing. -/
def Member.decode? (j : Json) : Option Member := do
  let fs ← j.fields? ["declaring_type", "name", "kind"]
  let owner ← Json.required fs "declaring_type" TypeName.decode?
  let name ← Json.required fs "name" Json.asString?
  let kind ← Json.withDefault fs "kind" .property MemberKind.decode?
  return ⟨owner, name, kind⟩

def Method.encode (m : Method) : Json :=
  .obj [("declaring_type", m.owner.encode), ("name", .str m.name)]

def Method.decode? (j : Json) : Option Method := do
  let fs ← j.fields? ["declaring_type", "name"]
  let owner ← Json.required fs "declaring_type" TypeName.decode?
  let name ← Json.required fs "name" Json.asString?
  return ⟨owner, name⟩

namespace CastType

def encode : CastType → Json
  | string => .str "string"
  | char => .str "char"
  | boolean => .str "boolean"
  | integer => .str "integer"
  | float => .str "float"
  | instant => .str "instant"
  | duration => .str "duration"
  | guid => .str "guid"
  | enumeration t => .tag "enum" t.encode
  | nullable t => .tag "nullable" t.encode
  | array t => .tag "array" t.encode
  | object t => .tag "object" t.encode

/-- Decodes a conversion target of at most `fuel` levels. -/
def decodeWithin : Nat → Json → Option CastType
  | 0, _ => none
  | fuel + 1, j => do
    match ← j.case? with
    | ("string", p) => Json.plain p string
    | ("char", p) => Json.plain p char
    | ("boolean", p) => Json.plain p boolean
    | ("integer", p) => Json.plain p integer
    | ("float", p) => Json.plain p float
    | ("instant", p) => Json.plain p instant
    | ("duration", p) => Json.plain p duration
    | ("guid", p) => Json.plain p guid
    | ("enum", some p) => (TypeName.decode? p).map enumeration
    | ("nullable", some p) => (decodeWithin fuel p).map nullable
    | ("array", some p) => (decodeWithin fuel p).map array
    | ("object", some p) => (TypeName.decode? p).map object
    | _ => none

def decode? (j : Json) : Option CastType := decodeWithin j.depth j

end CastType

def BinaryOp.encode (op : BinaryOp) : Json := .str op.name

def BinaryOp.decode? (j : Json) : Option BinaryOp := do
  let (name, p) ← j.case?
  let op ← all.find? (·.name = name)
  Json.plain p op

def UnaryOp.encode (op : UnaryOp) : Json :=
  match op with
  | convert t => .tag op.name t.encode
  | convertChecked t => .tag op.name t.encode
  | typeAs t => .tag op.name t.encode
  | unbox t => .tag op.name t.encode
  | _ => .str op.name

def UnaryOp.decode? (j : Json) : Option UnaryOp := do
  match ← j.case? with
  | ("convert", some p) => (CastType.decode? p).map convert
  | ("convert_checked", some p) => (CastType.decode? p).map convertChecked
  | ("type_as", some p) => (TypeName.decode? p).map typeAs
  | ("unbox", some p) => (TypeName.decode? p).map unbox
  | (name, p) => do
    let op ← UnaryOp.plain.find? (·.name = name)
    Json.plain p op

end LambdaScript
