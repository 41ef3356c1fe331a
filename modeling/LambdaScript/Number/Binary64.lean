/-! # Double-precision numbers

A number is known by its 64 bits: a sign, an exponent field of eleven bits and a fraction of 52.
A finite one is exactly a fraction of integers whose denominator is a power of two, and every
operation is the exact one followed by `nearest`, which rounds once, ties to even.
-/

namespace LambdaScript

def pow2 (k : Nat) : Nat := Nat.pow 2 k

def pow10 (k : Nat) : Nat := Nat.pow 10 k

/-- The integer nearest to `num / den`, ties to the even one. -/
def roundHalfEven (num den : Nat) : Nat :=
  let q := num / den
  let r := num % den
  if 2 * r < den then q else if den < 2 * r then q + 1 else q + q % 2

/-- A double-precision number, by its bits. -/
structure Binary64 where
  bits : UInt64
deriving DecidableEq

namespace Binary64

def negative (x : Binary64) : Bool := pow2 63 ≤ x.bits.toNat

def exponentField (x : Binary64) : Nat := x.bits.toNat / pow2 52 % pow2 11

def fractionField (x : Binary64) : Nat := x.bits.toNat % pow2 52

/-- Whether the number is neither infinite nor a NaN. -/
def isFinite (x : Binary64) : Bool := x.exponentField ≠ 2047

def isNaN (x : Binary64) : Bool := !x.isFinite && x.fractionField ≠ 0

/-- Whether the number is one of the two zeros. -/
def isZero (x : Binary64) : Bool := x.exponentField = 0 && x.fractionField = 0

/-- The significand of a finite number, with the leading bit that the fields leave out. -/
def significand (x : Binary64) : Nat :=
  if x.exponentField = 0 then x.fractionField else pow2 52 + x.fractionField

/-- The power of two that the significand of a finite number counts. -/
def scale (x : Binary64) : Int := (max x.exponentField 1 : Nat) - 1075

/-- The magnitude of a finite number is `numerator / denominator`. -/
def numerator (x : Binary64) : Nat := x.significand * pow2 x.scale.toNat

@[inherit_doc numerator]
def denominator (x : Binary64) : Nat := pow2 (-x.scale).toNat

def signedNumerator (x : Binary64) : Int :=
  if x.negative then -(x.numerator : Int) else x.numerator

/-- The number with a given sign whose other 63 bits are given. -/
def ofFields (negative : Bool) (magnitude : Nat) : Binary64 :=
  ⟨UInt64.ofNat ((if negative then pow2 63 else 0) + magnitude)⟩

/-- The 63 magnitude bits of infinity. -/
def infinityBits : Nat := 2047 * pow2 52

def infinity (negative : Bool) : Binary64 := ofFields negative infinityBits

/-- The NaN with a given sign that reading a text gives. -/
def nan (negative : Bool) : Binary64 := ofFields negative (infinityBits + pow2 51)

/-- The greatest `k` with `2 ^ k ≤ num / den`, for positive `num` and `den`. -/
def floorLog2 (num den : Nat) : Int :=
  let k : Int := (num.log2 : Int) - den.log2
  if den * pow2 k.toNat ≤ num * pow2 (-k).toNat then k else k - 1

/-- The number nearest to `num / den` with a given sign, ties to the even significand. A quotient
of at least half a unit above the greatest finite number gives infinity. The exponent field and
the significand are packed by addition, so a significand that rounds up to the next power of two
carries into the exponent. -/
def nearest (negative : Bool) (num den : Nat) : Binary64 :=
  if num = 0 then ofFields negative 0 else
    let e := max (floorLog2 num den - 52) (-1074)
    let m := roundHalfEven (num * pow2 (-e).toNat) (den * pow2 e.toNat)
    ofFields negative (min ((e + 1074).toNat * pow2 52 + m) infinityBits)

def nearestQuotient (num : Int) (den : Nat) : Binary64 := nearest (num < 0) num.natAbs den

def ofInt (n : Int) : Binary64 := nearestQuotient n 1

def add (x y : Binary64) : Binary64 :=
  nearestQuotient (x.signedNumerator * y.denominator + y.signedNumerator * x.denominator)
    (x.denominator * y.denominator)

def mul (x y : Binary64) : Binary64 :=
  nearestQuotient (x.signedNumerator * y.signedNumerator) (x.denominator * y.denominator)

end Binary64
end LambdaScript
