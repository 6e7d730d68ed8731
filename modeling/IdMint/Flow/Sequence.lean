import IdMint.Time.Clock

/-!
# The shared sequence of flow numbers

Time is cut into periods of a tenth of a second. Within a period the numbers
are counted from zero, and at most a thousand of them are issued: the next one
waits until the clock shows a later period. One sequence serves every tag.

A reading in any period other than the last one starts the count again, and no
reading is refused. A clock that leaves a period and comes back to it is not
noticed, since only the last period is remembered.

A period is a quotient that drops its fraction, so the two tenths of a second
around the start of 1970 are one period. Before the first number the last
period counts as -1.
-/

namespace IdMint

namespace Instant

def periodNanos : Int := 100000000

def period (t : Instant) : Int := t.nanos.tdiv periodNanos

end Instant

namespace Flow

def periodLimit : Int := 1000

/-- How far a period has been counted. -/
structure Sequence where
  /-- The count of the number issued last. -/
  counter : Int := 0
  /-- The period it was issued in. -/
  period : Int := -1
  deriving DecidableEq, Repr

/-- The place that one number takes, and what taking it leaves behind. -/
structure Turn (κ : Type) where
  /-- The reading that the number is dated with. -/
  instant : Instant
  /-- The sequence afterwards; its counter is the number's. -/
  sequence : Sequence
  clock : Supply κ
  deriving DecidableEq, Repr

variable {κ : Type} [Source κ Instant]

/-- The turn of the next number. -/
def Sequence.advance (q : Sequence) (clock : Supply κ) : Option (Turn κ) := do
  let (now, clock) ← clock.next?
  if now.period ≠ q.period then
    some { instant := now, sequence := { counter := 0, period := now.period }, clock }
  else if q.counter + 1 < periodLimit then
    some { instant := now, sequence := { q with counter := q.counter + 1 }, clock }
  else
    let (later, clock) ← clock.seek fun t => now.period < t.period
    some { instant := later, sequence := { counter := 0, period := later.period }, clock }

end Flow

end IdMint
