/-!
# Instants

A point in time is the number of nanoseconds since the start of 1970, UTC, and
may be negative. Two roundings are in use and they differ before 1970: a count
of milliseconds or of periods drops the fraction (toward zero), whereas the
calendar takes the second that has begun (toward the past), so that what is
left over is never negative.

A clock counts its nanoseconds in 64 bits. So does the way back from a second to the
instant it began at, which the calendar goes: in the very first second that 64 bits
reach into, it began before their range, and the calendar is asked about another one.
-/

namespace IdMint

structure Instant where
  /-- Nanoseconds since the start of 1970, UTC. -/
  nanos : Int
  deriving DecidableEq, Repr

namespace Instant

/-- The instant a whole number of milliseconds after the start of 1970. -/
def ofUnixMillis (millis : Int) : Instant := ⟨millis * 1000000⟩

/-- Milliseconds since the start of 1970, the fraction dropped. -/
def unixMillis (t : Instant) : Int := t.nanos.tdiv 1000000

def nanosPerSecond : Int := 1000000000

/-- The nanoseconds at which the last second began, as 64 bits hold them. -/
def secondStart (t : Instant) : Int :=
  (Int64.ofInt (t.nanos / nanosPerSecond * nanosPerSecond)).toInt

/-- The last whole second that has begun. -/
def seconds (t : Instant) : Int := t.secondStart.tdiv nanosPerSecond

/-- Milliseconds since that second began, from 0 to 999. The difference has 64 bits as well,
so it is right even if the beginning is not. -/
def millisOfSecond (t : Instant) : Int := (Int64.ofInt (t.nanos - t.secondStart)).toInt.tdiv 1000000

def advance (t : Instant) (nanos : Int) : Instant := ⟨t.nanos + nanos⟩

end Instant

end IdMint
