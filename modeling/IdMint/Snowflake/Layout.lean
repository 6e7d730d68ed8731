/-!
# The layout of an id

An id is a 64-bit word: a sign bit, 41 bits of milliseconds since a fixed
epoch, five bits of datacenter, five of worker, twelve of sequence. Reading the
word as a number therefore orders ids by time first.

Packing works on the word and lets it wrap, and the fields are joined bit by bit
and not clipped to their places. A word that comes out negative, from a time
before the epoch or 2 ^ 41 milliseconds past it, is replaced by its negation;
the one word that has no negation stays. Ids already handed out depend on that.

Unpacking reads the fields back by shifting the sign along, so a negative id
unpacks to a time before the epoch.
-/

namespace IdMint

abbrev Id := Int64

namespace Snowflake

/-- The start of the count of milliseconds, 2016-05-21 12:35:16.272 UTC. -/
def epochMillis : Int := 1463834116272

/-- The number of bits of the sequence, and the place of the worker. -/
def sequenceBits : Nat := 12

/-- The number of bits of a worker or of a datacenter. -/
def addressBits : Nat := 5

def datacenterShift : Nat := sequenceBits + addressBits

def timeShift : Nat := datacenterShift + addressBits

structure Fields where
  timestampMillis : Int
  datacenter : Int
  worker : Int
  sequence : Int
  deriving DecidableEq, Repr

namespace Fields

/-- A number as a 64-bit word, moved up by some places. -/
def shifted (n : Int) (places : Nat) : UInt64 := UInt64.ofInt n <<< UInt64.ofNat places

/-- The fields side by side in one word. -/
def pack (f : Fields) : UInt64 :=
  shifted (f.timestampMillis - epochMillis) timeShift ||| shifted f.datacenter datacenterShift
    ||| shifted f.worker sequenceBits ||| shifted f.sequence 0

def compose (f : Fields) : Id :=
  let id := f.pack.toInt64
  if id < 0 then -id else id

/-- The lowest bits of a number, as a number. -/
def lowest (bits : Nat) (n : Int) : Int := n % (1 <<< bits : Nat)

def decompose (id : Id) : Fields where
  timestampMillis := id.toInt >>> timeShift + epochMillis
  datacenter := lowest addressBits (id.toInt >>> datacenterShift)
  worker := lowest addressBits (id.toInt >>> sequenceBits)
  sequence := lowest sequenceBits id.toInt

end Fields

end Snowflake

end IdMint
