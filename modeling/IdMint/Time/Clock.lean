import IdMint.Supply
import IdMint.Time.Instant

/-!
# Clocks

Any source of instants serves as a clock, and nothing is assumed of its
readings: they may repeat, jump ahead or go back. `ManualClock` is the clock
that is moved by hand. It may also step by itself with every reading, and a
step of zero makes it stand still.
-/

namespace IdMint

/-- A clock that shows an instant, and moves by a fixed step whenever it is read. -/
structure ManualClock where
  current : Instant
  /-- By how many nanoseconds a reading moves the clock. -/
  autoStep : Int := 0
  deriving DecidableEq, Repr

instance : Source ManualClock Instant where
  next c := (c.current, { c with current := c.current.advance c.autoStep })

namespace ManualClock

def set (t : Instant) (c : ManualClock) : ManualClock := { c with current := t }

/-- The clock moved by a number of nanoseconds. -/
def advance (nanos : Int) (c : ManualClock) : ManualClock :=
  { c with current := c.current.advance nanos }

def setAutoStep (nanos : Int) (c : ManualClock) : ManualClock := { c with autoStep := nanos }

end ManualClock

end IdMint
