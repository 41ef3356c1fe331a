import LambdaScript.Json.Basic
import LambdaScript.Number.Word

/-! # Decoding JSON

The conventions that all encodings share. A case of several is a string, or an object with one
member whose key names the case. A structure is an object in which unknown keys are ignored, or an
array of its fields in order, of which the last ones may be missing if they have defaults.
-/

namespace LambdaScript.Json
variable {α : Type}

def asString? : Json → Option String
  | str s => some s
  | _ => none

def asBool? : Json → Option Bool
  | bool b => some b
  | _ => none

/-- A string of one character. -/
def asChar? : Json → Option Char
  | str s => match s.toList with
    | [c] => some c
    | _ => none
  | _ => none

/-- An integer in the 64-bit range. -/
def asWord? : Json → Option Int64
  | int n => Word.ofInt? n
  | _ => none

def asFloat? : Json → Option Binary64
  | int n => some (.ofInt n)
  | float x => some x
  | _ => none

def asList? (decode : Json → Option α) : Json → Option (List α)
  | arr items => items.mapM decode
  | _ => none

def asMap? (decode : Json → Option α) : Json → Option (List (String × α))
  | obj members => members.mapM fun m => (decode m.2).map (m.1, ·)
  | _ => none

def orNull? (decode : Json → Option α) : Json → Option (Option α)
  | null => some none
  | j => (decode j).map some

/-- The name of a case and its payload, if it has one. -/
def case? : Json → Option (String × Option Json)
  | str s => some (s, none)
  | obj [(name, j)] => some (name, some j)
  | _ => none

/-- The result of a case that takes no payload; null counts as none. -/
def plain (payload : Option Json) (result : α) : Option α :=
  match payload with
  | none => some result
  | some null => some result
  | some _ => none

/-- The fields of a structure with the given field names. -/
def fields? (names : List String) : Json → Option (List (String × Json))
  | obj members => some members
  | arr items => if items.length ≤ names.length then some (names.zip items) else none
  | _ => none

/-- The fields of a structure that is written as an object only. -/
def objectFields? : Json → Option (List (String × Json))
  | obj members => some members
  | _ => none

def required (fields : List (String × Json)) (name : String) (decode : Json → Option α) :
    Option α :=
  (fields.lookup name).bind decode

def withDefault (fields : List (String × Json)) (name : String) (default : α)
    (decode : Json → Option α) : Option α :=
  match fields.lookup name with
  | none => some default
  | some j => decode j

/-- A case with a payload. -/
def tag (name : String) (payload : Json) : Json := obj [(name, payload)]

def strings (items : List String) : Json := arr (items.map str)

def ofOption : Option Json → Json
  | none => null
  | some j => j

end LambdaScript.Json
