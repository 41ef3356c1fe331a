import LambdaScript.Number.Word
import LambdaScript.Time.Calendar

/-! # Instants and durations

An instant is a number of seconds since 1970-01-01T00:00:00Z, leap seconds not counted, and a number
of nanoseconds. A leap second is kept as the second before it with a whole second of nanoseconds on
top. The binary form counts ticks of 100 ns from 0001-01-01 and marks them as UTC; it exists for the
years 1 to 9999 and is computed in 64-bit words that refuse to overflow.

A duration is a whole number of nanoseconds, of either sign.
-/

namespace LambdaScript

structure Instant where
  seconds : Int64
  nanos : Nat
  nanos_lt : nanos < 2000000000 := by decide
deriving DecidableEq

namespace Instant

/-- The day 1970-01-01. -/
def epochDay : Int := 719162

def day (t : Instant) : Int := t.seconds.toInt / 86400 + epochDay

/-- The second of the day of an instant, leap seconds not counted. -/
def secondOfDay (t : Instant) : Nat := (t.seconds.toInt % 86400).toNat

def date (t : Instant) : Date := .ofDays t.day

/-- Ticks between 0001-01-01 and 1970-01-01. -/
def epochTicks : Int64 := 621355968000000000

/-- The last tick of the year 9999. -/
def lastTick : Int64 := 3155378975999999999

/-- The bit that marks a binary form as UTC. -/
def utcMark : Int64 := 4611686018427387904

/-- The ticks of an instant, if no step of the sum leaves the 64-bit range. -/
def ticks? (t : Instant) : Option Int64 := do
  let whole ← Word.mul? t.seconds 10000000
  let shifted ← Word.add? whole epochTicks
  Word.add? shifted (Int64.ofNat (t.nanos / 100))

/-- The binary form of an instant: its ticks with the UTC bit. -/
def toBinary? (t : Instant) : Option Int64 :=
  t.ticks?.bind fun ticks =>
    if 0 ≤ ticks ∧ ticks ≤ lastTick then some (ticks ||| utcMark) else none

end Instant

structure Duration where
  nanos : Int
deriving DecidableEq

namespace Duration

/-- The duration of a number of milliseconds; the least word stands for none. -/
def ofMillis? (n : Int64) : Option Duration :=
  if n.toInt = Word.least then none else some ⟨n.toInt * 1000000⟩

def toWord? (d : Duration) : Option Int64 := Word.ofInt? d.nanos

/-- The milliseconds of a duration. The whole seconds, cut off toward zero, and the rest become
numbers of their own, which are then added. -/
def totalMillis (d : Duration) : Binary64 :=
  let whole := (Binary64.ofInt (d.nanos.tdiv 1000000000)).mul (.ofInt 1000)
  whole.add (.nearestQuotient (d.nanos.tmod 1000000000) 1000000)

end Duration
end LambdaScript
