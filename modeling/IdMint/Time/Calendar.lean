import IdMint.Text.Decimal
import IdMint.Time.Instant

/-!
# The calendar

Dates of the Gregorian calendar, continued without a break in both directions,
in UTC. Days are counted from the start of March of the year zero, because a
leap day is then the last day of its year, of its four years, and of its four
hundred: each of these cycles is a number of equal parts and a remainder, with
the odd day at the end. Hence the `min`s: the last day of a cycle would
otherwise open a part that the cycle does not have.
-/

namespace IdMint

structure Date where
  /-- The year; negative and zero years are counted on without a gap. -/
  year : Int
  month : Nat
  day : Nat
  deriving DecidableEq, Repr

namespace Date

/-- Days from the start of March of the year zero to the start of 1970. -/
def daysToEpoch : Int := 719468

/-- The date a number of days after the start of 1970. -/
def ofDays (days : Int) : Date :=
  let fromMarch := days + daysToEpoch
  let cycle := fromMarch / 146097
  let dayOfCycle := (fromMarch % 146097).toNat
  let century := min (dayOfCycle / 36524) 3
  let dayOfCentury := dayOfCycle - century * 36524
  let olympiad := dayOfCentury / 1461
  let dayOfOlympiad := dayOfCentury - olympiad * 1461
  let year := min (dayOfOlympiad / 365) 3
  let dayOfYear := dayOfOlympiad - year * 365
  -- Months from March have 153 days in every five, 31 or 30 as this quotient has it.
  let month := (5 * dayOfYear + 2) / 153
  { year := 400 * cycle + 100 * century + 4 * olympiad + year + (if month < 10 then 0 else 1)
    month := if month < 10 then month + 3 else month - 9
    day := dayOfYear - (153 * month + 2) / 5 + 1 }

end Date

namespace Instant

def secondsPerDay : Int := 86400

def date (t : Instant) : Date := Date.ofDays (t.seconds / secondsPerDay)

/-- Seconds since the day of an instant began. -/
def secondOfDay (t : Instant) : Int := t.seconds % secondsPerDay

/-- The instant to the second as `YYYYMMDDHHMMSS`. -/
def compact (t : Instant) : Bytes :=
  let d := t.date
  let s := t.secondOfDay
  Decimal.padded 4 d.year ++ Decimal.padded 2 d.month ++ Decimal.padded 2 d.day
    ++ Decimal.padded 2 (s / 3600) ++ Decimal.padded 2 (s % 3600 / 60)
    ++ Decimal.padded 2 (s % 60)

end Instant

end IdMint
