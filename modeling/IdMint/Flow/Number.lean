import IdMint.Flow.Sequence
import IdMint.Random.Draw
import IdMint.Time.Calendar

/-!
# Flow numbers

A flow number is a tag in capitals and 22 digits after it: date and time to the
second, hundredths of the second, the count within the period, and a random
suffix. All parts but the tag have a fixed width, so numbers of one tag sort as
they were issued, unless the clock went back in between.

The count alone keeps the numbers of a period apart. The suffix is there
for numbers issued elsewhere, and nothing else of a number depends on it.
-/

namespace IdMint.Flow

def suffixBound : Nat := 1000

/-- A flow number, before it is written out. -/
structure Number where
  tag : Bytes
  /-- The instant that dates it. -/
  instant : Instant
  count : Int
  suffix : Nat
  deriving DecidableEq, Repr

def Number.render (n : Number) : Bytes :=
  Ascii.upper n.tag ++ n.instant.compact ++ Decimal.padded 2 (n.instant.millisOfSecond / 10)
    ++ Decimal.padded 3 n.count ++ Decimal.padded 3 n.suffix

/-- What issuing leaves behind: what was issued, the sequence and both supplies. -/
structure Issued (κ ρ α : Type) where
  value : α
  sequence : Sequence
  clock : Supply κ
  random : Supply ρ

variable {κ ρ : Type} [Source κ Instant] [Source ρ Draw]

/-- The next flow number under a tag. -/
def issue (tag : Bytes) (q : Sequence) (clock : Supply κ) (random : Supply ρ) :
    Option (Issued κ ρ Number) := do
  let turn ← q.advance clock
  let drawn ← uniformBelow suffixBound turn.clock random
  some
    { value :=
        { tag, instant := turn.instant, count := turn.sequence.counter, suffix := drawn.value }
      sequence := turn.sequence
      clock := drawn.clock
      random := drawn.random }

/-- Flow numbers under a list of tags, one after the other. -/
def issueAll (tags : List Bytes) (q : Sequence) (clock : Supply κ) (random : Supply ρ) :
    Option (Issued κ ρ (List Number)) :=
  go [] q clock random tags
where
  /-- Collects the numbers newest first. -/
  go (newestFirst : List Number) (q : Sequence) (clock : Supply κ) (random : Supply ρ) :
      List Bytes → Option (Issued κ ρ (List Number))
    | [] => some { value := newestFirst.reverse, sequence := q, clock, random }
    | tag :: tags => do
      let issued ← issue tag q clock random
      go (issued.value :: newestFirst) issued.sequence issued.clock issued.random tags

/-- A number of flow numbers under one tag. -/
def issueMany (tag : Bytes) (count : Nat) (q : Sequence) (clock : Supply κ)
    (random : Supply ρ) : Option (Issued κ ρ (List Number)) :=
  issueAll (List.replicate count tag) q clock random

end IdMint.Flow
