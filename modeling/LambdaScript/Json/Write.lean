import LambdaScript.Json.Basic
import LambdaScript.Number.Layout
import LambdaScript.Text.Join

/-! # Writing JSON

Documents on one line, without blanks between the parts. Control characters, quotes and backslashes
of strings are escaped.
-/

namespace LambdaScript.Json

def hexDigit (n : Nat) : Char := Nat.digitChar (n % 16)

def writeChar (c : Char) : List Char :=
  if c = '"' ∨ c = '\\' then ['\\', c]
  else if c.toNat < 0x20 then
    ['\\', 'u', '0', '0', hexDigit (c.toNat / 16), hexDigit c.toNat]
  else [c]

def writeString (s : String) : String :=
  "\"" ++ String.ofList (s.toList.flatMap writeChar) ++ "\""

mutual

/-- The text of a document. A number that is not finite is written as null. -/
def write : Json → String
  | null => "null"
  | bool b => if b then "true" else "false"
  | int n => Text.intText n
  | float x => if x.isFinite then x.detailedText else "null"
  | str s => writeString s
  | arr items => "[" ++ Text.commas (writeItems items) ++ "]"
  | obj members => "\x7b" ++ Text.commas (writeMembers members) ++ "\x7d"

def writeItems : List Json → List String
  | [] => []
  | j :: js => write j :: writeItems js

def writeMembers : List (String × Json) → List String
  | [] => []
  | (k, j) :: ms => (writeString k ++ ":" ++ write j) :: writeMembers ms

end

end LambdaScript.Json
