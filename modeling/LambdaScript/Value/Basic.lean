import LambdaScript.Declaration
import LambdaScript.Time.Instant

/-! # Values

A value is data of the host that is already known: a literal, or what a lambda captured. A record
describes itself: it lists its members, and a member that cannot be read has no value.
-/

namespace LambdaScript

/-- One member of a record; without a value it cannot be read. -/
structure Slot (α : Type) where
  name : String
  kind : MemberKind := .property
  value : Option α := none
deriving DecidableEq

/-- An object with its type and members, whose values have type `α`. -/
structure Record (α : Type) where
  type : TypeName
  slots : List (Slot α) := []
deriving DecidableEq

inductive Value where
  | null
  | string (s : String)
  | char (c : Char)
  | boolean (b : Bool)
  | integer (n : Int64)
  | float (x : Binary64)
  | instant (t : Instant)
  | duration (d : Duration)
  | enumeration (type : TypeName) (value : Int64)
  | array (items : List Value)
  | record (r : Record Value)

inductive ValueKind where
  | null | string | char | boolean | integer | float | instant | duration | enumeration | array
  | record
deriving DecidableEq

def ValueKind.name : ValueKind → String
  | .null => "null"
  | .string => "string"
  | .char => "char"
  | .boolean => "boolean"
  | .integer => "integer"
  | .float => "float"
  | .instant => "instant"
  | .duration => "duration"
  | .enumeration => "enum"
  | .array => "array"
  | .record => "structured"

namespace Record
variable {α : Type}

def withProperty (r : Record α) (name : String) (value : α) : Record α :=
  { r with slots := r.slots ++ [⟨name, .property, some value⟩] }

def withField (r : Record α) (name : String) (value : α) : Record α :=
  { r with slots := r.slots ++ [⟨name, .field, some value⟩] }

/-- Appends a property that cannot be read. -/
def withWriteOnly (r : Record α) (name : String) : Record α :=
  { r with slots := r.slots ++ [⟨name, .property, none⟩] }

/-- The value of the first member with a name, if that member can be read. -/
def get? (r : Record α) (name : String) : Option α :=
  (r.slots.find? (·.name = name)).bind (·.value)

/-- The readable members of one kind, in order. -/
def readable (r : Record α) (kind : MemberKind) : List (String × α) :=
  r.slots.filterMap fun s => if s.kind = kind then s.value.map (s.name, ·) else none

/-- The readable members: properties, then fields. -/
def listing (r : Record α) : List (String × α) := r.readable .property ++ r.readable .field

end Record

namespace Value

def kind : Value → ValueKind
  | null => .null
  | string _ => .string
  | char _ => .char
  | boolean _ => .boolean
  | integer _ => .integer
  | float _ => .float
  | instant _ => .instant
  | duration _ => .duration
  | enumeration _ _ => .enumeration
  | array _ => .array
  | record _ => .record

def type : Value → TypeName
  | null => ⟨"Object"⟩
  | string _ => ⟨"String"⟩
  | char _ => ⟨"Char"⟩
  | boolean _ => ⟨"Boolean"⟩
  | integer _ => ⟨"Int64"⟩
  | float _ => ⟨"Double"⟩
  | instant _ => ⟨"DateTime"⟩
  | duration _ => ⟨"TimeSpan"⟩
  | enumeration t _ => t
  | array _ => ⟨"Array"⟩
  | record r => r.type

end Value
end LambdaScript
