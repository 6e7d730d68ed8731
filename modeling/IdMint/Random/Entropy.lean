import IdMint.Random.Draw

/-!
# The kernel's random bytes

The kernel answers a request for random bytes in one of three ways. It
delivers bytes, perhaps fewer than were asked for; it is interrupted and
delivers nothing; or it fails. `fill` asks again after the first two until
it has what it needs, so how the bytes are cut into replies, and how often a
request is interrupted, does not show in what comes out.

A fill of no bytes asks for nothing. After a failure the bytes that were
already delivered are lost.
-/

namespace IdMint

namespace Entropy

/-- What the kernel has in store for the next requests. -/
inductive Reply where
  /-- Bytes, to be delivered in one request or in several. -/
  | bytes (delivered : Bytes)
  | interrupted
  | failed
  deriving DecidableEq, Repr

structure Filled where
  /-- The bytes asked for, or `none` after a failure. -/
  bytes? : Option Bytes
  requests : Nat
  rest : List Reply
  deriving DecidableEq, Repr

/-- The fill with one more request in front of it. -/
def Filled.afterRequest (f : Filled) : Filled := { f with requests := f.requests + 1 }

/-- The fill with bytes delivered in front of it. -/
def Filled.afterBytes (delivered : Bytes) (f : Filled) : Filled :=
  { f with bytes? := f.bytes?.map (delivered ++ ·) }

/-- A fill of `size` bytes. A kernel that has nothing in store fails. -/
def fill : List Reply → Nat → Filled
  | replies, 0 => { bytes? := some [], requests := 0, rest := replies }
  | [], _ + 1 => { bytes? := none, requests := 1, rest := [] }
  | .interrupted :: rest, size + 1 => (fill rest (size + 1)).afterRequest
  | .failed :: rest, _ + 1 => { bytes? := none, requests := 1, rest }
  | .bytes delivered :: rest, size + 1 =>
    if size + 1 < delivered.length then
      { bytes? := some (delivered.take (size + 1)), requests := 1,
        rest := .bytes (delivered.drop (size + 1)) :: rest }
    else ((fill rest (size + 1 - delivered.length)).afterBytes delivered).afterRequest

end Entropy

/-- The kernel as a source of draws, four bytes each. -/
structure Kernel where
  replies : List Entropy.Reply
  requests : Nat := 0
  deriving DecidableEq, Repr

instance : Source Kernel Draw where
  next k :=
    let filled := Entropy.fill k.replies 4
    (filled.bytes?.map BigEndian.toUInt32,
      { replies := filled.rest, requests := k.requests + filled.requests })

end IdMint
