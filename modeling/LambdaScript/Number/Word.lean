import LambdaScript.Number.Binary64

/-! # Signed 64-bit words

Integers of the trees are words of 64 bits. Arithmetic that could leave the range is refused
instead of wrapping round.

A number becomes a word in three steps: its fraction is rounded off, the rounded number is compared
with the ends of the range, and its integer part is taken. All three are operations on numbers; in
particular the range ends at the number nearest to the greatest word, which is one above it.
-/

namespace LambdaScript
namespace Word

def least : Int := -9223372036854775808

def greatest : Int := 9223372036854775807

def ofInt? (n : Int) : Option Int64 :=
  if least ≤ n ∧ n ≤ greatest then some (Int64.ofInt n) else none

/-- The word with a given value, or the end of the range that is closest to the value. -/
def clamp (n : Int) : Int64 :=
  if n < least then Int64.ofInt least
  else if greatest < n then Int64.ofInt greatest
  else Int64.ofInt n

def mul? (a b : Int64) : Option Int64 := ofInt? (a.toInt * b.toInt)

def add? (a b : Int64) : Option Int64 := ofInt? (a.toInt + b.toInt)

end Word

namespace Binary64

/-- The number without its fraction, rounded to the nearest integer, ties to even. The sign stays,
also that of a zero, and so do infinities and NaNs. -/
def roundToIntegral (x : Binary64) : Binary64 :=
  if x.isFinite then nearest x.negative (roundHalfEven x.numerator x.denominator) 1 else x

/-- Whether one number is at most another; this does not hold of a NaN. The fields of an infinity
read as the power `2 ^ 1024`, which is above all finite numbers. -/
def le (x y : Binary64) : Bool :=
  !x.isNaN && !y.isNaN &&
    x.signedNumerator * y.denominator ≤ y.signedNumerator * x.denominator

/-- Whether one number is below another. -/
def lt (x y : Binary64) : Bool :=
  !x.isNaN && !y.isNaN &&
    x.signedNumerator * y.denominator < y.signedNumerator * x.denominator

/-- The integer part of a number. Beyond the range it is the end of the range, and it is zero for a
NaN. -/
def toWord (x : Binary64) : Int64 :=
  if x.isNaN then 0 else Word.clamp (x.signedNumerator.tdiv x.denominator)

/-- The word nearest to a number, if the rounded number is in range. -/
def toWord? (x : Binary64) : Option Int64 :=
  let r := x.roundToIntegral
  if le (ofInt Word.least) r && lt r (ofInt Word.greatest) then some r.toWord else none

end Binary64
end LambdaScript
