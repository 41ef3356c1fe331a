import LambdaScript.Failure
import LambdaScript.Number.Layout
import LambdaScript.Number.Read
import LambdaScript.Number.Word
import LambdaScript.Text.Digits

/-! # Conversions

Reading members of values, and converting values to other types. Texts are read without the blanks
around them. Numbers become integers by rounding half to even, and are refused outside the 64-bit
range.
-/

namespace LambdaScript
namespace Value

/-- Reads a member of a value; only records have members. -/
def read (v : Value) (m : Member) : Except Failure Value :=
  match v with
  | record r => match r.get? m.name with
    | some w => .ok w
    | none => .error (.unreadable r.type m.name)
  | _ => .error (.unreadable v.type m.name)

def toText? : Value → Option String
  | string s => some s
  | char c => some (String.singleton c)
  | integer n => some (Text.intText n.toInt)
  | float x => some (x.plainText "inf")
  | boolean b => some (if b then "true" else "false")
  | _ => none

def charOfCode? (n : Int) : Option Char :=
  if 0 ≤ n ∧ n.toNat.isValidChar then some (Char.ofNat n.toNat) else none

/-- The character of a value: itself, or the one with the integer's code. -/
def toChar? : Value → Option Char
  | char c => some c
  | integer n => charOfCode? n.toInt
  | _ => none

def readBool? (s : String) : Option Bool :=
  let cs := Text.trim s.toList
  if equalIgnoringCase cs "true".toList then some true
  else if equalIgnoringCase cs "false".toList then some false
  else none

/-- The truth of a value: numbers are true unless they are zero. -/
def toBool? : Value → Option Bool
  | boolean b => some b
  | integer n => some (n ≠ 0)
  | float x => some !x.isZero
  | string s => readBool? s
  | _ => none

def toWord? : Value → Option Int64
  | integer n => some n
  | enumeration _ n => some n
  | boolean b => some (if b then 1 else 0)
  | char c => some (Int64.ofNat c.toNat)
  | float x => x.toWord?
  | string s => (Text.readInt? (Text.trim s.toList)).bind Word.ofInt?
  | _ => none

def toFloat? : Value → Option Binary64
  | float x => some x
  | integer n => some (.ofInt n.toInt)
  | boolean b => some (.ofInt (if b then 1 else 0))
  | string s => Binary64.read? (Text.trim s.toList)
  | _ => none

def convert? (v : Value) : CastType → Option Value
  | .string => v.toText?.map string
  | .guid => match v with
    | string s => some (string s)
    | _ => none
  | .char => v.toChar?.map char
  | .boolean => v.toBool?.map boolean
  | .integer => v.toWord?.map integer
  | .enumeration t => v.toWord?.map (enumeration t)
  | .float => v.toFloat?.map float
  | .instant => match v with
    | instant t => some (instant t)
    | _ => none
  | .duration => match v with
    | duration d => some (duration d)
    | _ => none
  | .nullable _ | .array _ | .object _ => none

/-- Converts a value to a type. A nullable type leaves null as it is and is otherwise the type
inside it, which is also the one that a failure names. -/
def convert (v : Value) : CastType → Except Failure Value
  | .nullable inner => match v with
    | null => .ok null
    | _ => v.convert inner
  | t => match v.convert? t with
    | some w => .ok w
    | none => .error (.conversion v.kind t)

end Value
end LambdaScript
