import LambdaScript.Dump.Declaration
import LambdaScript.Number.Layout
import LambdaScript.Time.InstantText
import LambdaScript.Value.Basic

/-! # Dumps of values -/

namespace LambdaScript

/-- The dump of a duration: seconds rounded down, and the nanoseconds on top of them. -/
def Duration.dump (d : Duration) : String :=
  Dump.node "TimeDelta"
    [("secs", Text.intText (d.nanos / 1000000000)), ("nanos", Text.intText (d.nanos % 1000000000))]

/-- The dump of a member of a record, of which the value is dumped already. -/
def Slot.dump (s : Slot String) : String :=
  Dump.node "ValueMember"
    [("name", Text.quoted s.name), ("kind", s.kind.dump), ("value", Dump.option s.value)]

def Record.dump (r : Record String) : String :=
  Dump.node "StructuredValue"
    [("ty", r.type.dump), ("members", Dump.list (r.slots.map Slot.dump))]

namespace Value

mutual

def dump : Value → String
  | null => "Null"
  | string s => Dump.wrap "String" (Text.quoted s)
  | char c => Dump.wrap "Char" (Text.quotedChar c)
  | boolean b => Dump.wrap "Boolean" (Dump.bool b)
  | integer n => Dump.wrap "Integer" (Text.intText n.toInt)
  | float x => Dump.wrap "Float" x.detailedText
  | instant t => Dump.wrap "Instant" (String.ofList t.text)
  | duration d => Dump.wrap "Duration" d.dump
  | enumeration t n => Dump.node "Enum" [("ty", t.dump), ("value", Text.intText n.toInt)]
  | array items => Dump.wrap "Array" (Dump.list (dumpItems items))
  | record ⟨t, slots⟩ => Dump.wrap "Structured" (Record.dump ⟨t, dumpSlots slots⟩)

def dumpItems : List Value → List String
  | [] => []
  | v :: vs => dump v :: dumpItems vs

def dumpSlots : List (Slot Value) → List (Slot String)
  | [] => []
  | ⟨name, kind, none⟩ :: slots => ⟨name, kind, none⟩ :: dumpSlots slots
  | ⟨name, kind, some v⟩ :: slots => ⟨name, kind, some (dump v)⟩ :: dumpSlots slots

end

end Value
end LambdaScript
