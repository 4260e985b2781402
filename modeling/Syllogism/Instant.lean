/-! Instants: points of coordinated universal time on the proleptic Gregorian calendar. -/
namespace Syllogism

/-- A date and a time of day. Second 60 is a leap second. -/
structure Instant where
  year : Int
  month : Nat
  day : Nat
  hour : Nat
  minute : Nat
  second : Nat
  nanosecond : Nat
  deriving DecidableEq

namespace Instant

def epoch : Instant := ⟨1970, 1, 1, 0, 0, 0, 0⟩

def isLeapYear (y : Int) : Bool := y % 4 = 0 && (y % 100 ≠ 0 || y % 400 = 0)

def daysInMonth (y : Int) (month : Nat) : Nat :=
  if month = 2 then (if isLeapYear y then 29 else 28)
  else if month = 4 || month = 6 || month = 9 || month = 11 then 30
  else 31

def nextDay (t : Instant) : Instant :=
  if t.day < daysInMonth t.year t.month then { t with day := t.day + 1 }
  else if t.month < 12 then { t with month := t.month + 1, day := 1 }
  else { t with year := t.year + 1, month := 1, day := 1 }

def previousDay (t : Instant) : Instant :=
  if 1 < t.day then { t with day := t.day - 1 }
  else if 1 < t.month then
    { t with month := t.month - 1, day := daysInMonth t.year (t.month - 1) }
  else { t with year := t.year - 1, month := 12, day := 31 }

/-- The date that lies a number of days after the first of January 1970. Years are counted from
March, in cycles of 400 years, so that the leap day comes last. -/
def ofDays (days : Int) : Instant :=
  let d := days + 719468
  let cycle := Int.fdiv d 146097
  let inCycle := (d - cycle * 146097).toNat
  let y := (inCycle - inCycle / 1460 + inCycle / 36524 - inCycle / 146096) / 365
  let inYear := inCycle - (365 * y + y / 4 - y / 100)
  let m := (5 * inYear + 2) / 153
  let month := if m < 10 then m + 3 else m - 9
  { epoch with
    year := y + cycle * 400 + (if month ≤ 2 then 1 else 0)
    month
    day := inYear - (153 * m + 2) / 5 + 1 }

def ofNanoseconds (n : Int) : Instant :=
  let seconds := Int.fdiv n 1000000000
  let days := Int.fdiv seconds 86400
  let clock := (seconds - days * 86400).toNat
  { ofDays days with
    hour := clock / 3600
    minute := clock / 60 % 60
    second := clock % 60
    nanosecond := (n - seconds * 1000000000).toNat }

/-- Moves the clock back by a number of minutes, which is less than a day either way. -/
def minusMinutes (t : Instant) (m : Int) : Instant :=
  let total : Int := t.hour * 60 + t.minute - m
  let clock := total % 1440
  let t' := { t with hour := (clock / 60).toNat, minute := (clock % 60).toNat }
  if total < 0 then t'.previousDay else if 1440 ≤ total then t'.nextDay else t'

end Instant

end Syllogism
