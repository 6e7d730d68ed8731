import IdMint.Snowflake.Address
import IdMint.Text.Base62
import IdMint.Time.Clock

/-!
# Issuing ids

A generator remembers the slot it filled last, a millisecond and a sequence in
it, and goes on from there. A later millisecond starts at sequence zero. The
same millisecond takes the next of its 4096 sequences, and when they are used up
the generator reads the clock until it shows a later one. An earlier
millisecond is refused, with the distance to the last one, and the generator
stays as it was: once the clock has caught up it goes on as if nothing had
happened.

So slots are filled in order and never twice. While waiting, readings at or
below the last millisecond are merely passed over; only the first reading of
a call can be refused. Before the first id the last millisecond counts as -1.
-/

namespace IdMint

/-- A clock found behind the last millisecond an id was issued for. -/
structure ClockError where
  /-- By how many milliseconds. -/
  regression : Int
  deriving DecidableEq, Repr

def ClockError.message (e : ClockError) : Bytes :=
  ascii "clock moved backwards, refusing to generate id for " ++ Decimal.ofInt e.regression
    ++ ascii " milliseconds"

namespace Snowflake

/-- A place in time that takes one id. -/
structure Slot where
  millis : Int
  sequence : Fin 4096
  deriving DecidableEq, Repr

/-- The id of a slot, issued at an address. -/
def Slot.id (address : Address) (s : Slot) : Id :=
  Fields.compose
    { timestampMillis := s.millis, datacenter := address.datacenter.val,
      worker := address.worker.val, sequence := s.sequence.val }

structure Generator where
  address : Address
  last : Slot := { millis := -1, sequence := 0 }
  deriving DecidableEq, Repr

/-- What a call leaves behind: its result, the generator and the clock. -/
structure Call (κ α : Type) where
  result : Except ClockError α
  generator : Generator
  clock : Supply κ

/-- The call with its result rendered. -/
def Call.map {κ α β : Type} (f : α → β) (c : Call κ α) : Call κ β :=
  { result := c.result.map f, generator := c.generator, clock := c.clock }

namespace Generator

variable {κ : Type} [Source κ Instant]

/-- A generator that has issued nothing, for ids in range. -/
def create (worker datacenter : Int) : Except OutOfRange Generator := do
  let address ← Address.ofIds worker datacenter
  .ok { address }

/-- The slot after the last one, for a reading that is not behind it. The clock is read
on if the millisecond is used up. -/
def nextSlot (g : Generator) (millis : Int) (clock : Supply κ) : Option (Slot × Supply κ) :=
  if g.last.millis < millis then some ({ millis, sequence := 0 }, clock)
  else if g.last.sequence + 1 ≠ 0 then
    some ({ millis, sequence := g.last.sequence + 1 }, clock)
  else do
    let (later, clock) ← clock.seek fun t => g.last.millis < t.unixMillis
    some ({ millis := later.unixMillis, sequence := 0 }, clock)

/-- The next id, or an error when the clock is behind. -/
def next (g : Generator) (clock : Supply κ) : Option (Call κ Id) := do
  let (now, clock) ← clock.next?
  if now.unixMillis < g.last.millis then
    some { result := .error ⟨g.last.millis - now.unixMillis⟩, generator := g, clock }
  else
    let (slot, clock) ← g.nextSlot now.unixMillis clock
    some { result := .ok (slot.id g.address), generator := { g with last := slot }, clock }

def nextShort (g : Generator) (clock : Supply κ) : Option (Call κ Bytes) :=
  (g.next clock).map (Call.map Base62.encode)

structure Run (κ : Type) where
  results : List (Except ClockError Id)
  generator : Generator
  clock : Supply κ

/-- A number of calls one after the other, going on after errors. -/
def run (count : Nat) (g : Generator) (clock : Supply κ) : Option (Run κ) :=
  go [] g clock count
where
  /-- Collects the results newest first. -/
  go (newestFirst : List (Except ClockError Id)) (g : Generator) (clock : Supply κ) :
      Nat → Option (Run κ)
    | 0 => some { results := newestFirst.reverse, generator := g, clock }
    | count + 1 => do
      let call ← g.next clock
      go (call.result :: newestFirst) call.generator call.clock count

/-- A number of ids, or the error of the first call that fails, which is the last call
made. -/
def batch (count : Nat) (g : Generator) (clock : Supply κ) : Option (Call κ (List Id)) :=
  go [] g clock count
where
  /-- Collects the ids newest first. -/
  go (newestFirst : List Id) (g : Generator) (clock : Supply κ) :
      Nat → Option (Call κ (List Id))
    | 0 => some { result := .ok newestFirst.reverse, generator := g, clock }
    | count + 1 => do
      let call ← g.next clock
      match call.result with
      | .ok id => go (id :: newestFirst) call.generator call.clock count
      | .error e =>
        some { result := .error e, generator := call.generator, clock := call.clock }

end Generator

end Snowflake

end IdMint
