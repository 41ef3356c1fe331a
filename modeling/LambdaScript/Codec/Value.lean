import LambdaScript.Codec.Declaration
import LambdaScript.Time.InstantText
import LambdaScript.Value.Basic

/-! # JSON forms of values

The null value is the string `null`; JSON's own null stands for the value of a member that cannot be
read. A duration is encoded in nanoseconds if they fit into a word, so encoding can fail.
-/

namespace LambdaScript

/-- Encodes a member of a record whose value is encoded already. -/
def Slot.encode (s : Slot Json) : Json :=
  .obj [("name", .str s.name), ("kind", s.kind.encode), ("value", .ofOption s.value)]

def Slot.decodeWith {α : Type} (decode : Json → Option α) (j : Json) : Option (Slot α) := do
  let fs ← j.fields? ["name", "kind", "value"]
  let name ← Json.required fs "name" Json.asString?
  let kind ← Json.withDefault fs "kind" .property MemberKind.decode?
  let value ← Json.withDefault fs "value" none (Json.orNull? decode)
  return ⟨name, kind, value⟩

def Record.encode (r : Record Json) : Json :=
  .obj [("ty", r.type.encode), ("members", .arr (r.slots.map Slot.encode))]

def Record.decodeWith {α : Type} (decode : Json → Option α) (j : Json) : Option (Record α) := do
  let fs ← j.fields? ["ty", "members"]
  let type ← Json.required fs "ty" TypeName.decode?
  let slots ← Json.withDefault fs "members" [] (Json.asList? (Slot.decodeWith decode))
  return ⟨type, slots⟩

def Instant.decode? (j : Json) : Option Instant := j.asString?.bind fun s => Instant.read? s.toList

namespace Value

mutual

def encode : Value → Option Json
  | null => some (.str "null")
  | string s => some (.tag "string" (.str s))
  | char c => some (.tag "char" (.str (String.singleton c)))
  | boolean b => some (.tag "boolean" (.bool b))
  | integer n => some (.tag "integer" (.int n.toInt))
  | float x => some (.tag "float" (if x.isFinite then .float x else .null))
  | instant t => some (.tag "instant" (.str (String.ofList t.text)))
  | duration d => d.toWord?.map fun n => .tag "duration" (.int n.toInt)
  | enumeration t n =>
    some (.tag "enum" (.obj [("ty", t.encode), ("value", .int n.toInt)]))
  | array items => (encodeItems items).map fun js => .tag "array" (.arr js)
  | record ⟨t, slots⟩ =>
    (encodeSlots slots).map fun slots => .tag "structured" (Record.encode ⟨t, slots⟩)

def encodeItems : List Value → Option (List Json)
  | [] => some []
  | v :: vs => (encode v).bind fun j => (encodeItems vs).map (j :: ·)

def encodeSlots : List (Slot Value) → Option (List (Slot Json))
  | [] => some []
  | ⟨name, kind, none⟩ :: slots => (encodeSlots slots).map (⟨name, kind, none⟩ :: ·)
  | ⟨name, kind, some v⟩ :: slots =>
    (encode v).bind fun j => (encodeSlots slots).map (⟨name, kind, some j⟩ :: ·)

end

def decodeEnumeration? (j : Json) : Option Value := do
  let fs ← j.objectFields?
  let t ← Json.required fs "ty" TypeName.decode?
  let n ← Json.required fs "value" Json.asWord?
  return enumeration t n

/-- Decodes a value of at most `fuel` levels. -/
def decodeWithin : Nat → Json → Option Value
  | 0, _ => none
  | fuel + 1, j => do
    match ← j.case? with
    | ("null", p) => Json.plain p null
    | ("string", some p) => p.asString?.map string
    | ("char", some p) => p.asChar?.map char
    | ("boolean", some p) => p.asBool?.map boolean
    | ("integer", some p) => p.asWord?.map integer
    | ("float", some p) => p.asFloat?.map float
    | ("instant", some p) => (Instant.decode? p).map instant
    | ("duration", some p) => p.asWord?.map fun n => duration ⟨n.toInt⟩
    | ("enum", some p) => decodeEnumeration? p
    | ("array", some p) => (p.asList? (decodeWithin fuel)).map array
    | ("structured", some p) => (Record.decodeWith (decodeWithin fuel) p).map record
    | _ => none

def decode? (j : Json) : Option Value := decodeWithin j.depth j

end Value

def Record.decode? (j : Json) : Option (Record Value) :=
  Record.decodeWith (Value.decodeWithin j.depth) j

end LambdaScript
