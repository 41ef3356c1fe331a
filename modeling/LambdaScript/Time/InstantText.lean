import LambdaScript.Number.Binary64
import LambdaScript.Text.Digits
import LambdaScript.Time.Instant

/-! # Texts of instants

Reading takes a date, one of `T`, `t` and a space, a time of day and an offset from UTC. A year of
more than four digits needs a sign. Blanks may stand before a number and before the mark that
separates two numbers, around the offset and at the end. Writing gives UTC with the shortest
fraction of no, three, six or nine digits that is exact, and a leap second as second 60.
-/

namespace LambdaScript.Instant

/-- Reads one to `limit` digits. -/
def number? (limit : Nat) (cs : List Char) : Option (Nat × List Char) :=
  let ds := (cs.take limit).takeWhile Text.isDigit
  if ds.isEmpty then none else some (Text.ofDigits ds, cs.drop ds.length)

def twoDigits? (cs : List Char) : Option (Nat × List Char) := number? 2 (Text.trimStart cs)

def mark? (mark : Char) (cs : List Char) : Option (List Char) :=
  match Text.trimStart cs with
  | c :: rest => if c = mark then some rest else none
  | [] => none

/-- Reads blanks and a year: up to four digits, or a sign and any number of them. -/
def year? (cs : List Char) : Option (Int × List Char) :=
  match Text.trimStart cs with
  | '-' :: rest => (number? rest.length rest).map fun (n, rest) => (-(n : Int), rest)
  | '+' :: rest => (number? rest.length rest).map fun (n, rest) => ((n : Int), rest)
  | rest => (number? 4 rest).map fun (n, rest) => ((n : Int), rest)

/-- Reads a date and checks that it exists. -/
def date? (cs : List Char) : Option (Date × List Char) := do
  let (year, cs) ← year? cs
  let (month, cs) ← twoDigits? (← mark? '-' cs)
  let (day, cs) ← twoDigits? (← mark? '-' cs)
  let date : Date := ⟨year, month, day⟩
  if date.isValid ∧ -262143 ≤ year ∧ year ≤ 262142 then some (date, cs) else none

def timeMark? : List Char → Option (List Char)
  | c :: cs => if c = 'T' ∨ c = 't' ∨ c = ' ' then some cs else none
  | [] => none

/-- Reads an optional fraction of a second, in nanoseconds; digits after the ninth are dropped. -/
def fraction? : List Char → Option (Nat × List Char)
  | '.' :: cs =>
    let ds := cs.takeWhile Text.isDigit
    if ds.isEmpty then none else
      let kept := ds.take 9
      some (Text.ofDigits kept * pow10 (9 - kept.length), cs.drop ds.length)
  | cs => some (0, cs)

/-- Reads a time of day: the second of the day and the nanoseconds. Second 60 is second 59 and
a whole second of nanoseconds. -/
def time? (cs : List Char) : Option ((Nat × Nat) × List Char) := do
  let (hour, cs) ← twoDigits? cs
  let (minute, cs) ← twoDigits? (← mark? ':' cs)
  let (second, cs) ← twoDigits? (← mark? ':' cs)
  let (nanos, cs) ← fraction? cs
  if hour < 24 ∧ minute < 60 ∧ second ≤ 60 then
    let leap := second / 60
    some ((hour * 3600 + minute * 60 + second - leap, nanos + leap * 1000000000), cs)
  else none

def pair? : List Char → Option (Nat × List Char)
  | a :: b :: cs =>
    if Text.isDigit a ∧ Text.isDigit b then some (Text.ofDigits [a, b], cs) else none
  | _ => none

/-- Reads the hours and minutes of an offset, in seconds. -/
def offsetSize? (cs : List Char) : Option (Nat × List Char) := do
  let (hours, cs) ← pair? cs
  let (minutes, cs) ← pair? (cs.dropWhile fun c => c = ':' || Text.isBlank c)
  if hours < 24 ∧ minutes < 60 then some (hours * 3600 + minutes * 60, cs) else none

/-- Reads an offset from UTC, in seconds: `Z`, the letters `UTC`, or a sign, hours and minutes. -/
def offset? (cs : List Char) : Option (Int × List Char) :=
  let cs := Text.trimStart cs
  if (cs.take 3).map Char.toUpper = ['U', 'T', 'C'] then some (0, cs.drop 3) else
    match cs with
    | 'Z' :: rest => some (0, rest)
    | 'z' :: rest => some (0, rest)
    | '+' :: rest => (offsetSize? rest).map fun (n, rest) => ((n : Int), rest)
    | '-' :: rest => (offsetSize? rest).map fun (n, rest) => (-(n : Int), rest)
    | '\u2212' :: rest => (offsetSize? rest).map fun (n, rest) => (-(n : Int), rest)
    | _ => none

/-- The first second of the year -262143. -/
def firstSecond : Int := (Date.startOfYear (-262143) - epochDay) * 86400

/-- The last second of the year 262142. -/
def lastSecond : Int := (Date.startOfYear 262143 - epochDay) * 86400 - 1

def ofSeconds? (seconds : Int) (nanos : Nat) : Option Instant :=
  if h : nanos < 2000000000 then
    if firstSecond ≤ seconds ∧ seconds ≤ lastSecond then some ⟨Int64.ofInt seconds, nanos, h⟩
    else none
  else none

def read? (cs : List Char) : Option Instant := do
  let (date, cs) ← date? cs
  let ((second, nanos), cs) ← time? (← timeMark? cs)
  let (offset, cs) ← offset? cs
  if (Text.trimStart cs).isEmpty then
    ofSeconds? ((date.toDays - epochDay) * 86400 + second - offset) nanos
  else none

/-- A year in four digits, with a sign before years outside of 0 to 9999. -/
def yearText (year : Int) : List Char :=
  let ds := Text.paddedDigits 4 year.natAbs
  if 0 ≤ year ∧ year ≤ 9999 then ds else (if year < 0 then '-' else '+') :: ds

/-- The shortest exact fraction of no, three, six or nine digits. -/
def fractionText (nanos : Nat) : List Char :=
  if nanos = 0 then []
  else if nanos % 1000000 = 0 then '.' :: Text.paddedDigits 3 (nanos / 1000000)
  else if nanos % 1000 = 0 then '.' :: Text.paddedDigits 6 (nanos / 1000)
  else '.' :: Text.paddedDigits 9 nanos

def text (t : Instant) : List Char :=
  let d := t.date
  let s := t.secondOfDay
  yearText d.year ++ '-' :: Text.paddedDigits 2 d.month ++ '-' :: Text.paddedDigits 2 d.day ++
    'T' :: Text.paddedDigits 2 (s / 3600) ++ ':' :: Text.paddedDigits 2 (s / 60 % 60) ++
    ':' :: Text.paddedDigits 2 (s % 60 + t.nanos / 1000000000) ++
    fractionText (t.nanos % 1000000000) ++ ['Z']

end LambdaScript.Instant
