/-! # Digits and white space

Numerals written with the ten ASCII digits: their values, their texts, and signed numerals. Blanks
are the characters with the property `White_Space`; the zero-width characters U+200B and U+FEFF are
not among them.
-/

namespace LambdaScript.Text

/-- Whether a character is one of `0` to `9`. -/
def isDigit (c : Char) : Bool := '0' ≤ c && c ≤ '9'

def digitValue (c : Char) : Nat := c.toNat - '0'.toNat

/-- The number that a row of digits denotes; the empty row denotes zero. -/
def ofDigits (cs : List Char) : Nat := cs.foldl (fun n c => 10 * n + digitValue c) 0

/-- The digits of a number, without leading zeros; zero is written `0`. -/
def digits (n : Nat) : List Char := Nat.toDigits 10 n

/-- The least `k` with `n < 10 ^ k`: the number of digits, and none for zero. -/
def decimalLength (n : Nat) : Nat := if n = 0 then 0 else (digits n).length

/-- The digits of a number, padded with zeros to at least `width` places. -/
def paddedDigits (width n : Nat) : List Char :=
  let cs := digits n
  List.replicate (width - cs.length) '0' ++ cs

def natText (n : Nat) : String := String.ofList (digits n)

def intText (n : Int) : String :=
  if n < 0 then "-" ++ natText n.natAbs else natText n.natAbs

/-- Reads one or more digits and nothing else. -/
def readNat? (cs : List Char) : Option Nat :=
  if cs ≠ [] && cs.all isDigit then some (ofDigits cs) else none

/-- Reads an optional sign, `+` or `-`, and one or more digits. -/
def readInt? : List Char → Option Int
  | '-' :: cs => (readNat? cs).map fun n => -(n : Int)
  | '+' :: cs => (readNat? cs).map fun n => (n : Int)
  | cs => (readNat? cs).map fun n => (n : Int)

/-! ## Blanks -/

/-- Whether a code point has the property `White_Space`. -/
def isBlankCode (n : Nat) : Bool :=
  (9 ≤ n && n ≤ 13) || n == 0x20 || n == 0x85 || n == 0xA0 || n == 0x1680 ||
  (0x2000 ≤ n && n ≤ 0x200A) || n == 0x2028 || n == 0x2029 || n == 0x202F ||
  n == 0x205F || n == 0x3000

def isBlank (c : Char) : Bool := isBlankCode c.toNat

def trimStart (s : List Char) : List Char := s.dropWhile isBlank

def trimEnd (s : List Char) : List Char := (s.reverse.dropWhile isBlank).reverse

def trim (s : List Char) : List Char := trimEnd (trimStart s)

end LambdaScript.Text
