import LambdaScript.Number.Decimal

/-! # Texts of numbers

Every text starts from the shortest decimal. The plain layout never has an exponent and writes
whole numbers without a point. The detailed layout always has a point or an exponent: numbers of at
least `10 ^ -4` and below `10 ^ 16` are positional, others have one digit before the point.
-/

namespace LambdaScript
namespace Decimal

/-- The digits before and after the point when the decimal is written positionally. -/
def positionalParts (d : Decimal) : List Char × List Char :=
  let cs := Text.digits d.units
  let places := (-d.exponent).toNat
  let whole := cs ++ List.replicate d.exponent.toNat '0'
  let padded := List.replicate (places + 1 - whole.length) '0' ++ whole
  (padded.take (padded.length - places), padded.drop (padded.length - places))

def signText (d : Decimal) : String := if d.negative then "-" else ""

/-- Positional text, with at least `least` digits after the point. -/
def positional (least : Nat) (d : Decimal) : String :=
  let (whole, part) := d.positionalParts
  let part := part ++ List.replicate (least - part.length) '0'
  d.signText ++ String.ofList whole ++
    if part.isEmpty then "" else "." ++ String.ofList part

/-- Text with an exponent: one digit, the others after a point, and the power of ten. -/
def scientific (d : Decimal) : String :=
  let cs := Text.digits d.units
  let part := cs.drop 1
  d.signText ++ String.ofList (cs.take 1) ++
    (if part.isEmpty then "" else "." ++ String.ofList part) ++
    "e" ++ Text.intText (d.exponent + part.length)

end Decimal

namespace Binary64

/-- The text of a number that is not finite; `unbounded` is the word for infinity. -/
def nonFiniteText (unbounded : String) (x : Binary64) : String :=
  if x.isNaN then "NaN" else if x.negative then "-" ++ unbounded else unbounded

/-- The plain layout: positional, with a point only where a digit follows it. -/
def plainText (unbounded : String) (x : Binary64) : String :=
  if x.isFinite then x.shortest.positional 0 else x.nonFiniteText unbounded

/-- The detailed layout, in which no number looks like an integer. -/
def detailedText (x : Binary64) : String :=
  if x.isFinite then
    let d := x.shortest
    let top := (Text.decimalLength d.units : Int) + d.exponent
    if x.isZero ∨ (-4 < top ∧ top ≤ 16) then d.positional 1 else d.scientific
  else x.nonFiniteText "inf"

end Binary64
end LambdaScript
