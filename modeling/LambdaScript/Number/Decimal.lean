import LambdaScript.Number.Binary64
import LambdaScript.Text.Digits

/-! # Decimals

A decimal is a sign, a natural number of units and the power of ten that the units count.
Reading a decimal as a double-precision number rounds it once. The shortest decimal of a number is
searched on the grids of one, two, up to seventeen digits: the first grid on which one of the
number's two neighbours reads back wins, of two the nearer one, and a tie goes away from zero.
-/

namespace LambdaScript

/-- The decimal `± units · 10 ^ exponent`. -/
structure Decimal where
  negative : Bool
  units : Nat
  exponent : Int
deriving DecidableEq

namespace Decimal

/-- The number nearest to a decimal. Decimals beyond every finite number, and those too small for
the least one, are settled by their magnitude alone, so that no exponent is too large to read. -/
def toBinary64 (d : Decimal) : Binary64 :=
  let top := (Text.decimalLength d.units : Int) + d.exponent
  if d.units = 0 ∨ top < -400 then .ofFields d.negative 0
  else if 400 < top then .infinity d.negative
  else .nearest d.negative (d.units * pow10 d.exponent.toNat) (pow10 (-d.exponent).toNat)

/-- Drops the zeros at the end of the units, at most `fuel` of them. -/
def dropZeros : Nat → Decimal → Decimal
  | 0, d => d
  | fuel + 1, d =>
    if d.units ≠ 0 ∧ d.units % 10 = 0 then
      dropZeros fuel { d with units := d.units / 10, exponent := d.exponent + 1 }
    else d

end Decimal

namespace Binary64

/-- The least `p` with `num / den < 10 ^ p`, for positive `num` and `den`. -/
def decimalTop (num den : Nat) : Int :=
  if den ≤ num then Text.decimalLength (num / den)
  else 1 - (Text.decimalLength ((den - 1) / num) : Int)

/-- The decimal of `places` digits nearest to a finite nonzero number among those that read back
as the number. -/
def onGrid? (x : Binary64) (places : Nat) : Option Decimal :=
  let exponent := decimalTop x.numerator x.denominator - places
  let num := x.numerator * pow10 (-exponent).toNat
  let den := x.denominator * pow10 exponent.toNat
  let below : Decimal := ⟨x.negative, num / den, exponent⟩
  let above : Decimal := ⟨x.negative, num / den + 1, exponent⟩
  match decide (below.toBinary64 = x), decide (above.toBinary64 = x) with
  | true, true => if 2 * (num % den) < den then some below else some above
  | true, false => some below
  | false, true => some above
  | false, false => none

/-- The shortest decimal that reads back as a finite number. -/
def shortest (x : Binary64) : Decimal :=
  if x.isZero then ⟨x.negative, 0, 0⟩ else
    let found := (List.range 17).findSome? fun i => x.onGrid? (i + 1)
    (found.getD ⟨x.negative, 0, 0⟩).dropZeros 17

end Binary64
end LambdaScript
