import LambdaScript.Number.Decimal

/-! # Reading numbers

The texts that denote double-precision numbers: an optional sign, then `inf`, `infinity` or `nan`
in any letter case, or digits with an optional point on either side of them and an optional
exponent.
-/

namespace LambdaScript

/-- An optional sign and what follows it; `true` is a minus. -/
def takeSign : List Char → Bool × List Char
  | '-' :: cs => (true, cs)
  | '+' :: cs => (false, cs)
  | cs => (false, cs)

def equalIgnoringCase (a b : List Char) : Bool := a.map Char.toLower == b.map Char.toLower

namespace Decimal

/-- The exponent that may follow the digits: nothing, or `e` and a signed numeral. -/
def readExponent? : List Char → Option Int
  | [] => some 0
  | c :: cs => if c = 'e' ∨ c = 'E' then Text.readInt? cs else none

/-- Reads digits with an optional point, at least one digit, and an optional exponent. -/
def readUnsigned? (negative : Bool) (cs : List Char) : Option Decimal :=
  let whole := cs.takeWhile Text.isDigit
  let rest := cs.dropWhile Text.isDigit
  let (part, rest) := match rest with
    | '.' :: tail => (tail.takeWhile Text.isDigit, tail.dropWhile Text.isDigit)
    | tail => ([], tail)
  if whole.isEmpty ∧ part.isEmpty then none else
    (readExponent? rest).map fun e => ⟨negative, Text.ofDigits (whole ++ part), e - part.length⟩

end Decimal

namespace Binary64

def read? (cs : List Char) : Option Binary64 :=
  let (negative, cs) := takeSign cs
  if equalIgnoringCase cs "inf".toList || equalIgnoringCase cs "infinity".toList then
    some (.infinity negative)
  else if equalIgnoringCase cs "nan".toList then
    some (nan negative)
  else (Decimal.readUnsigned? negative cs).map Decimal.toBinary64

end Binary64
end LambdaScript
