import LambdaScript.Json.Basic
import LambdaScript.Number.Read

/-! # Reading JSON

A reader of the standard grammar. Of several members with one key the last one stands. Integers
outside of the ranges of signed and unsigned 64-bit words, and a negative zero, are read as
double-precision numbers; a number beyond the finite ones is refused.

Every part of a document takes at least one character, so the length of the text bounds the number
of steps.
-/

namespace LambdaScript.Json

def isSpace (c : Char) : Bool := c = ' ' || c = '\n' || c = '\r' || c = '\t'

def skipSpace (cs : List Char) : List Char := cs.dropWhile isSpace

def hexValue? (c : Char) : Option Nat :=
  if Text.isDigit c then some (Text.digitValue c)
  else if 'a' ≤ c ∧ c ≤ 'f' then some (c.toNat - 'a'.toNat + 10)
  else if 'A' ≤ c ∧ c ≤ 'F' then some (c.toNat - 'A'.toNat + 10)
  else none

def ofHex? (cs : List Char) : Option Nat :=
  cs.foldlM (fun n c => (hexValue? c).map fun d => 16 * n + d) 0

/-- Reads the four digits of an escape. -/
def unit? (cs : List Char) : Option (Nat × List Char) :=
  if (cs.take 4).length = 4 then (ofHex? (cs.take 4)).map (·, cs.drop 4) else none

/-- Reads the code of an escaped character: one unit, or two units that form a surrogate pair. -/
def escapedCode? (cs : List Char) : Option (Char × List Char) := do
  let (high, cs) ← unit? cs
  if high < 0xD800 ∨ 0xDFFF < high then some (Char.ofNat high, cs)
  else if high < 0xDC00 then
    match cs with
    | '\\' :: 'u' :: cs => do
      let (low, cs) ← unit? cs
      if 0xDC00 ≤ low ∧ low ≤ 0xDFFF then
        some (Char.ofNat (0x10000 + (high - 0xD800) * 0x400 + (low - 0xDC00)), cs)
      else none
    | _ => none
  else none

/-- Reads what follows a backslash. -/
def escape? : List Char → Option (Char × List Char)
  | '"' :: cs => some ('"', cs)
  | '\\' :: cs => some ('\\', cs)
  | '/' :: cs => some ('/', cs)
  | 'b' :: cs => some ('\x08', cs)
  | 'f' :: cs => some ('\x0c', cs)
  | 'n' :: cs => some ('\n', cs)
  | 'r' :: cs => some ('\r', cs)
  | 't' :: cs => some ('\t', cs)
  | 'u' :: cs => escapedCode? cs
  | _ => none

/-- Reads a string up to its closing quote; `read` holds the characters so far, last one first. -/
def stringRest? : Nat → List Char → List Char → Option (String × List Char)
  | 0, _, _ => none
  | _, _, [] => none
  | fuel + 1, read, c :: cs =>
    if c = '"' then some (String.ofList read.reverse, cs)
    else if c = '\\' then (escape? cs).bind fun (e, cs) => stringRest? fuel (e :: read) cs
    else if c.toNat < 0x20 then none
    else stringRest? fuel (c :: read) cs

def string? : List Char → Option (String × List Char)
  | '"' :: cs => stringRest? (cs.length + 1) [] cs
  | _ => none

/-- Reads the whole part of a number, which has no leading zeros. -/
def whole? (cs : List Char) : Option (List Char × List Char) :=
  match cs.takeWhile Text.isDigit with
  | [] => none
  | '0' :: _ => some (['0'], cs.drop 1)
  | ds => some (ds, cs.drop ds.length)

/-- Reads an optional fraction: a point and at least one digit. -/
def part? : List Char → Option (List Char × List Char)
  | '.' :: cs =>
    let ds := cs.takeWhile Text.isDigit
    if ds.isEmpty then none else some (ds, cs.drop ds.length)
  | cs => some ([], cs)

def exponent? : List Char → Option (Option Int × List Char)
  | c :: cs =>
    if c = 'e' ∨ c = 'E' then
      let (negative, cs) := takeSign cs
      let ds := cs.takeWhile Text.isDigit
      if ds.isEmpty then none else
        let n : Int := Text.ofDigits ds
        some (some (if negative then -n else n), cs.drop ds.length)
    else some (none, c :: cs)
  | [] => some (none, [])

def ofParts? (negative : Bool) (whole part : List Char) (exponent : Option Int) : Option Json :=
  let n := Text.ofDigits whole
  let isWord := if negative then 0 < n ∧ n ≤ pow2 63 else n < pow2 64
  if part.isEmpty ∧ exponent.isNone ∧ isWord then some (int (if negative then -n else n)) else
    let d : Decimal :=
      ⟨negative, Text.ofDigits (whole ++ part), exponent.getD 0 - part.length⟩
    let x := d.toBinary64
    if x.isFinite then some (float x) else none

def number? (cs : List Char) : Option (Json × List Char) := do
  let (negative, cs) := match cs with
    | '-' :: rest => (true, rest)
    | rest => (false, rest)
  let (whole, cs) ← whole? cs
  let (part, cs) ← part? cs
  let (exponent, cs) ← exponent? cs
  return (← ofParts? negative whole part exponent, cs)

def word? (word : List Char) (j : Json) (cs : List Char) : Option (Json × List Char) :=
  if cs.take word.length = word then some (j, cs.drop word.length) else none

mutual

/-- Reads a document after the blanks before it. -/
def value? : Nat → List Char → Option (Json × List Char)
  | 0, _ => none
  | fuel + 1, cs =>
    match skipSpace cs with
    | '[' :: cs =>
      match skipSpace cs with
      | ']' :: cs => some (arr [], cs)
      | cs => (items? fuel cs).map fun (items, cs) => (arr items, cs)
    | '\x7b' :: cs =>
      match skipSpace cs with
      | '\x7d' :: cs => some (obj [], cs)
      | cs => (members? fuel [] cs).map fun (members, cs) => (obj members, cs)
    | '"' :: cs => (string? ('"' :: cs)).map fun (s, cs) => (str s, cs)
    | 't' :: cs => word? "true".toList (bool true) ('t' :: cs)
    | 'f' :: cs => word? "false".toList (bool false) ('f' :: cs)
    | 'n' :: cs => word? "null".toList null ('n' :: cs)
    | cs => number? cs

/-- Reads the items of an array up to its end. -/
def items? : Nat → List Char → Option (List Json × List Char)
  | 0, _ => none
  | fuel + 1, cs => do
    let (j, cs) ← value? fuel cs
    match skipSpace cs with
    | ',' :: cs => (items? fuel cs).map fun (js, cs) => (j :: js, cs)
    | ']' :: cs => some ([j], cs)
    | _ => none

/-- Reads the members of an object up to its end; `read` holds the members so far. -/
def members? : Nat → List (String × Json) → List Char → Option (List (String × Json) × List Char)
  | 0, _, _ => none
  | fuel + 1, read, cs => do
    let (key, cs) ← string? (skipSpace cs)
    match skipSpace cs with
    | ':' :: cs => do
      let (j, cs) ← value? fuel cs
      let read := setMember key j read
      match skipSpace cs with
      | ',' :: cs => members? fuel read cs
      | '\x7d' :: cs => some (read, cs)
      | _ => none
    | _ => none

end

/-- Reads the text of a document, which may have blanks around it. -/
def read? (s : String) : Option Json := do
  let cs := s.toList
  let (j, cs) ← value? (2 * cs.length + 2) cs
  if (skipSpace cs).isEmpty then some j else none

end LambdaScript.Json
