/-! # Calendar dates

The proleptic Gregorian calendar, with a year 0 and negative years before it. Days are counted from
0001-01-01, which is day 0. A year starts after the leap days of the years before it; the year of a
day is found inside its cycle of 400 years, which always has 146097 days.
-/

namespace LambdaScript

/-- A date: the month counts from 1, and so does the day of the month. -/
structure Date where
  year : Int
  month : Nat
  day : Nat
deriving DecidableEq

namespace Date

def isLeap (year : Int) : Bool := year % 4 = 0 && (year % 100 ≠ 0 || year % 400 = 0)

def monthLengths (year : Int) : List Nat :=
  [31, if isLeap year then 29 else 28, 31, 30, 31, 30, 31, 31, 30, 31, 30, 31]

def isValid (d : Date) : Bool :=
  1 ≤ d.month && 1 ≤ d.day && d.day ≤ (monthLengths d.year).getD (d.month - 1) 0

def startOfYear (year : Int) : Int :=
  let y := year - 1
  365 * y + y / 4 - y / 100 + y / 400

/-- The days of a year before a month. -/
def daysBefore (year : Int) (month : Nat) : Nat :=
  ((monthLengths year).take (month - 1)).foldl (· + ·) 0

def toDays (d : Date) : Int := startOfYear d.year + daysBefore d.year d.month + d.day - 1

/-- The days of the first `k` years of a cycle of 400 years. -/
def cycleDays (k : Nat) : Nat := 365 * k + k / 4 - k / 100 + k / 400

/-- The year of a cycle that holds the cycle's day `n`, counted from 0. -/
def yearOfCycle (n : Nat) : Nat :=
  let k := n / 366
  if cycleDays (k + 1) ≤ n then k + 1 else k

def yearOfDay (n : Int) : Int :=
  400 * (n / 146097) + yearOfCycle (n % 146097).toNat + 1

/-- The month, counted from `month`, and the day of the month that hold the day `n` of a year whose
remaining months have the given lengths. -/
def monthAndDay (month : Nat) : List Nat → Nat → Nat × Nat
  | [], n => (month, n + 1)
  | length :: lengths, n =>
    if n < length then (month, n + 1) else monthAndDay (month + 1) lengths (n - length)

def ofDays (n : Int) : Date :=
  let year := yearOfDay n
  let (month, day) := monthAndDay 1 (monthLengths year) (n - startOfYear year).toNat
  ⟨year, month, day⟩

end Date
end LambdaScript
