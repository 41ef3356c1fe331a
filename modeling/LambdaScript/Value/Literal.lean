import LambdaScript.Number.Layout
import LambdaScript.Text.Join
import LambdaScript.Value.Basic

/-! # Literals

The text of a value in a script. The characters of a string stand as they are between the quotes.
Records are written only where they are allowed, and an instant outside of the years 1 to 9999 has
no literal; whatever contains a value without a literal has none either.
-/

namespace LambdaScript

def Binary64.literal (x : Binary64) : String := x.plainText "Infinity"

/-- A text between double quotes, as it is. -/
def Text.enclose (s : String) : String := "\"" ++ s ++ "\""

def Record.pair? (member : String × Option String) : Option String :=
  member.2.map fun t => member.1 ++ ":" ++ t

/-- The literal of a record whose values are written already: the readable members in order. -/
def Record.literal (r : Record (Option String)) : Option String := do
  let pairs ← r.listing.mapM Record.pair?
  return "\x7b" ++ Text.commas pairs ++ "\x7d"

namespace Value

mutual

/-- The literal of a value; `records` says whether records may be written. -/
def literal (records : Bool) : Value → Option String
  | null => some "null"
  | string s => some (Text.enclose s)
  | char c => some (Text.enclose (String.singleton c))
  | boolean b => some (if b then "true" else "false")
  | integer n => some (Text.intText n.toInt)
  | float x => some x.literal
  | instant t => t.toBinary?.map fun n => Text.intText n.toInt
  | duration d => some d.totalMillis.literal
  | enumeration _ n => some (Text.intText n.toInt)
  | array items => (literalItems records items).map fun ts => "[" ++ Text.commas ts ++ "]"
  | record ⟨type, slots⟩ =>
    if records then Record.literal ⟨type, literalSlots records slots⟩ else none

def literalItems (records : Bool) : List Value → Option (List String)
  | [] => some []
  | v :: vs => (literal records v).bind fun t => (literalItems records vs).map (t :: ·)

def literalSlots (records : Bool) : List (Slot Value) → List (Slot (Option String))
  | [] => []
  | ⟨name, kind, none⟩ :: slots => ⟨name, kind, none⟩ :: literalSlots records slots
  | ⟨name, kind, some v⟩ :: slots =>
    ⟨name, kind, some (literal records v)⟩ :: literalSlots records slots

end

end Value
end LambdaScript
