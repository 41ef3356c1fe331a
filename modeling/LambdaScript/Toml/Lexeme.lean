import LambdaScript.Json.Read
import LambdaScript.Number.Read
import LambdaScript.Number.Word
import LambdaScript.Time.Calendar
import LambdaScript.Toml.Basic

/-! # Lexemes of TOML

Line ends and comments, keys, strings, and the words that stand for numbers, truth values, dates and
times.
-/

namespace LambdaScript.Toml

/-- Blanks inside a line. -/
def isSpace (c : Char) : Bool := c = ' ' || c = '\t'

def skipSpace (cs : List Char) : List Char := cs.dropWhile isSpace

def isPrintable (c : Char) : Bool := c = '\t' || (0x20 ≤ c.toNat && c.toNat ≠ 0x7F)

def skipComment : List Char → List Char
  | '#' :: cs => cs.dropWhile isPrintable
  | cs => cs

def newline? : List Char → Option (List Char)
  | '\n' :: cs => some cs
  | '\r' :: '\n' :: cs => some cs
  | _ => none

/-- Reads the rest of a line on which nothing but blanks and a comment follow. -/
def lineEnd? (cs : List Char) : Option (List Char) :=
  match skipComment (skipSpace cs) with
  | [] => some []
  | cs => newline? cs

def skipLines : Nat → List Char → List Char
  | 0, cs => cs
  | fuel + 1, cs =>
    let cs := skipComment (skipSpace cs)
    match newline? cs with
    | some cs => skipLines fuel cs
    | none => cs

def codePoint? (width : Nat) (cs : List Char) : Option (Char × List Char) := do
  let ds := cs.take width
  let n ← Json.ofHex? ds
  if ds.length = width ∧ n.isValidChar then some (Char.ofNat n, cs.drop width) else none

def escape? : List Char → Option (Char × List Char)
  | 'b' :: cs => some ('\x08', cs)
  | 't' :: cs => some ('\t', cs)
  | 'n' :: cs => some ('\n', cs)
  | 'f' :: cs => some ('\x0c', cs)
  | 'r' :: cs => some ('\r', cs)
  | '"' :: cs => some ('"', cs)
  | '\\' :: cs => some ('\\', cs)
  | 'u' :: cs => codePoint? 4 cs
  | 'U' :: cs => codePoint? 8 cs
  | _ => none

/-- Reads a basic string up to its closing quote; `done` holds the characters so far, last one
first. -/
def basicRest? : Nat → List Char → List Char → Option (String × List Char)
  | 0, _, _ => none
  | _, _, [] => none
  | fuel + 1, done, c :: cs =>
    if c = '"' then some (String.ofList done.reverse, cs)
    else if c = '\\' then (escape? cs).bind fun (e, cs) => basicRest? fuel (e :: done) cs
    else if isPrintable c then basicRest? fuel (c :: done) cs
    else none

def literalRest? (cs : List Char) : Option (String × List Char) :=
  let text := cs.takeWhile fun c => c ≠ '\'' && isPrintable c
  match cs.drop text.length with
  | '\'' :: rest => some (String.ofList text, rest)
  | _ => none

/-- Reads the end of a string of several lines: three quotes, before which up to two more belong to
the string. The result is the number of those. -/
def closing? (quote : Char) (cs : List Char) : Option (Nat × List Char) :=
  let count := (cs.takeWhile (· = quote)).length
  if 3 ≤ count then some (min (count - 3) 2, cs.drop (min count 5)) else none

/-- Removes the line break that may follow the opening quotes. -/
def skipFirstBreak (cs : List Char) : List Char := (newline? cs).getD cs

def skipBreaks : Nat → List Char → List Char
  | 0, cs => cs
  | fuel + 1, cs =>
    match newline? (skipSpace cs) with
    | some cs => skipBreaks fuel cs
    | none => skipSpace cs

/-- After a backslash at the end of a line: removes the line break and all blanks and line breaks
after it. A carriage return that ends no line stays. -/
def lineContinuation? (cs : List Char) : Option (List Char) :=
  (newline? (skipSpace cs)).map fun cs => skipBreaks (cs.length + 1) cs

def basicLines? : Nat → List Char → List Char → Option (String × List Char)
  | 0, _, _ => none
  | _, _, [] => none
  | fuel + 1, done, c :: cs =>
    if c = '"' then
      match closing? '"' (c :: cs) with
      | some (more, rest) =>
        some (String.ofList (done.reverse ++ List.replicate more '"'), rest)
      | none => basicLines? fuel (c :: done) cs
    else if c = '\\' then
      match lineContinuation? cs with
      | some cs => basicLines? fuel done cs
      | none => (escape? cs).bind fun (e, cs) => basicLines? fuel (e :: done) cs
    else
      match newline? (c :: cs) with
      | some cs => basicLines? fuel ('\n' :: done) cs
      | none => if isPrintable c then basicLines? fuel (c :: done) cs else none

def literalLines? : Nat → List Char → List Char → Option (String × List Char)
  | 0, _, _ => none
  | _, _, [] => none
  | fuel + 1, done, c :: cs =>
    if c = '\'' then
      match closing? '\'' (c :: cs) with
      | some (more, rest) =>
        some (String.ofList (done.reverse ++ List.replicate more '\''), rest)
      | none => literalLines? fuel (c :: done) cs
    else
      match newline? (c :: cs) with
      | some cs => literalLines? fuel ('\n' :: done) cs
      | none => if isPrintable c then literalLines? fuel (c :: done) cs else none

def string? : List Char → Option (String × List Char)
  | '"' :: '"' :: '"' :: cs => basicLines? (cs.length + 1) [] (skipFirstBreak cs)
  | '\'' :: '\'' :: '\'' :: cs => literalLines? (cs.length + 1) [] (skipFirstBreak cs)
  | '"' :: cs => basicRest? (cs.length + 1) [] cs
  | '\'' :: cs => literalRest? cs
  | _ => none

def isBareKey (c : Char) : Bool := c.isAlphanum || c = '_' || c = '-'

/-- Reads one part of a key. -/
def simpleKey? : List Char → Option (String × List Char)
  | '"' :: cs => basicRest? (cs.length + 1) [] cs
  | '\'' :: cs => literalRest? cs
  | cs =>
    let key := cs.takeWhile isBareKey
    if key.isEmpty then none else some (String.ofList key, cs.drop key.length)

/-- The greatest depth of a document: of arrays and tables in braces inside each other, and of the
parts of a key. -/
def maxDepth : Nat := 79

/-- Reads a key of at most `limit` parts with points between them, and the blanks after it. The
result is the path and the last part. -/
def keyParts? : Nat → List Char → Option ((List String × String) × List Char)
  | 0, _ => none
  | limit + 1, cs => do
    let (key, cs) ← simpleKey? (skipSpace cs)
    match skipSpace cs with
    | '.' :: cs => (keyParts? limit cs).map fun ((path, last), cs) => ((key :: path, last), cs)
    | cs => some (([], key), cs)

def key? (cs : List Char) : Option ((List String × String) × List Char) := keyParts? maxDepth cs

/-- Whether underscores stand only between digits. -/
def underscoresSeparate (isDigit : Char → Bool) : List Char → Bool
  | [] => false
  | [c] => isDigit c
  | '_' :: _ => false
  | c :: '_' :: cs => isDigit c && underscoresSeparate isDigit cs
  | c :: cs => isDigit c && underscoresSeparate isDigit cs

def plainDigits? (isDigit : Char → Bool) (cs : List Char) : Option (List Char) :=
  if underscoresSeparate isDigit cs then some (cs.filter (· ≠ '_')) else none

/-- Digits of a numeral, of which the first is not a zero unless it is the only one. -/
def wholeDigits? (cs : List Char) : Option (List Char) :=
  match plainDigits? Text.isDigit cs with
  | some ('0' :: _ :: _) => none
  | ds => ds

def ofBase? (base : Nat) (cs : List Char) : Option Int64 := do
  let ds ← plainDigits? (fun c => ((Json.hexValue? c).getD base) < base) cs
  Word.ofInt? (ds.foldl (fun n c => base * n + (Json.hexValue? c).getD 0) 0 : Nat)

def integer? : List Char → Option Int64
  | '0' :: 'x' :: cs => ofBase? 16 cs
  | '0' :: 'o' :: cs => ofBase? 8 cs
  | '0' :: 'b' :: cs => ofBase? 2 cs
  | cs => do
    let (negative, cs) := takeSign cs
    let ds ← wholeDigits? cs
    let n : Int := Text.ofDigits ds
    Word.ofInt? (if negative then -n else n)

def exponent? (cs : List Char) : Option Int := do
  let (negative, cs) := takeSign cs
  let ds ← plainDigits? Text.isDigit cs
  let n : Int := Text.ofDigits ds
  return if negative then -n else n

/-- Reads the word of a double-precision number, which has a fraction or an exponent. One beyond the
greatest finite number is refused, while one below the least is negative infinity. -/
def float? (cs : List Char) : Option Binary64 :=
  let (negative, cs) := takeSign cs
  if cs = "inf".toList then some (.infinity negative)
  else if cs = "nan".toList then some (.nan negative)
  else do
    let mantissa := cs.takeWhile fun c => c ≠ 'e' && c ≠ 'E'
    let wholeText := mantissa.takeWhile (· ≠ '.')
    let whole ← wholeDigits? wholeText
    let part ← match mantissa.drop wholeText.length with
      | [] => some []
      | _ :: cs => plainDigits? Text.isDigit cs
    let exponent ← match cs.drop mantissa.length with
      | [] => if part.isEmpty then none else some 0
      | _ :: cs => exponent? cs
    let d : Decimal := ⟨negative, Text.ofDigits (whole ++ part), exponent - part.length⟩
    let x := d.toBinary64
    if x = .infinity false then none else some x

/-- Whether characters are digits of a number below a limit. -/
def isBelow (limit : Nat) (cs : List Char) : Bool :=
  cs.length = 2 && cs.all Text.isDigit && Text.ofDigits cs < limit

def isDate (cs : List Char) : Bool :=
  let year := cs.take 4
  let month := (cs.drop 5).take 2
  let day := (cs.drop 8).take 2
  cs.length = 10 && cs[4]? = some '-' && cs[7]? = some '-' &&
    (year ++ month ++ day).all Text.isDigit &&
    Date.isValid ⟨Text.ofDigits year, Text.ofDigits month, Text.ofDigits day⟩

def isTime (cs : List Char) : Bool :=
  isBelow 24 (cs.take 2) && cs[2]? = some ':' && isBelow 60 ((cs.drop 3).take 2) &&
    cs[5]? = some ':' && isBelow 61 ((cs.drop 6).take 2) &&
    match cs.drop 8 with
    | [] => true
    | '.' :: part => !part.isEmpty && part.all Text.isDigit
    | _ => false

def isOffset : List Char → Bool
  | ['Z'] | ['z'] => true
  | c :: cs =>
    (c = '+' || c = '-') && isBelow 24 (cs.take 2) && cs[2]? = some ':' && isBelow 60 (cs.drop 3)
  | [] => false

def isTimeWithOffset (cs : List Char) : Bool :=
  let time := cs.takeWhile fun c => Text.isDigit c || c = ':' || c = '.'
  isTime time && (time.length = cs.length || isOffset (cs.drop time.length))

/-- Whether a word is a date, a time, or both with an optional offset. -/
def isMoment (cs : List Char) : Bool :=
  isDate cs || isTime cs ||
    (isDate (cs.take 10) && (cs[10]? = some 'T' || cs[10]? = some 't') &&
      isTimeWithOffset (cs.drop 11))

def isWordChar (c : Char) : Bool :=
  c.isAlphanum || c = '_' || c = '-' || c = '+' || c = '.' || c = ':'

def ofWord? (word : List Char) : Option Toml :=
  if word = "true".toList then some (.boolean true)
  else if word = "false".toList then some (.boolean false)
  else if isMoment word then some (.moment (String.ofList word))
  else match integer? word with
    | some n => some (.integer n)
    | none => (float? word).map .float

/-- Reads a word. A date may have a blank before its time. -/
def word? (cs : List Char) : Option (Toml × List Char) :=
  let word := cs.takeWhile isWordChar
  let rest := cs.drop word.length
  match isDate word, rest with
  | true, ' ' :: after =>
    let time := after.takeWhile isWordChar
    if isTimeWithOffset time then
      some (.moment (String.ofList (word ++ ' ' :: time)), after.drop time.length)
    else some (.moment (String.ofList word), rest)
  | _, _ => (ofWord? word).map (·, rest)

end LambdaScript.Toml
