import IdMint.Digest.Sha256
import Mathlib.Data.Nat.Digits.Defs
import Mathlib.Data.Nat.NthRoot.Defs
import Mathlib.Data.Nat.Prime.Defs
import Mathlib.Order.Bounds.Basic

/-!
# The hash function of FIPS 180-4

Written down from the standard's side: words are strings of 32 bits, the words of a
schedule are numbered and each is defined by those before it, and the working variables
are a sequence of eight words each. The constants are not listed but said, as first bits
of the fractional parts of roots of primes, so the two tables in use are compared with
something that is not a table.

What a message is completed to is a relation here. It asks for the fewest zeros and
does not say how many they are.
-/

namespace IdMint.Sha256.Standard

/-- A string of 32 bits, the first one most significant. -/
abbrev Word := BitVec 32

/-! ## Functions of words -/

def ch (x y z : Word) : Word := (x &&& y) ^^^ (~~~x &&& z)

def maj (x y z : Word) : Word := (x &&& y) ^^^ (x &&& z) ^^^ (y &&& z)

def bigSigma0 (x : Word) : Word := x.rotateRight 2 ^^^ x.rotateRight 13 ^^^ x.rotateRight 22

def bigSigma1 (x : Word) : Word := x.rotateRight 6 ^^^ x.rotateRight 11 ^^^ x.rotateRight 25

def smallSigma0 (x : Word) : Word := x.rotateRight 7 ^^^ x.rotateRight 18 ^^^ (x >>> 3)

def smallSigma1 (x : Word) : Word := x.rotateRight 17 ^^^ x.rotateRight 19 ^^^ (x >>> 10)

/-! ## Constants -/

/-- The first sixty-four primes. -/
def primes : List Nat := (List.range 312).filter Nat.Prime

/-- The first 32 bits of the fractional part of a root. -/
def rootBits (degree radicand : Nat) : Word :=
  BitVec.ofNat 32 (Nat.nthRoot degree (radicand * 2 ^ (32 * degree)))

/-- The constant of round `t`. -/
def constant (t : Nat) : Word := rootBits 3 (primes.getD t 0)

theorem primes_eq :
    primes =
      [2, 3, 5, 7, 11, 13, 17, 19, 23, 29, 31, 37, 41, 43, 47, 53,
       59, 61, 67, 71, 73, 79, 83, 89, 97, 101, 103, 107, 109, 113, 127, 131,
       137, 139, 149, 151, 157, 163, 167, 173, 179, 181, 191, 193, 197, 199, 211, 223,
       227, 229, 233, 239, 241, 251, 257, 263, 269, 271, 277, 281, 283, 293, 307, 311] := by
  decide +kernel

/-! ## The padded message -/

/-- The message is followed by one byte `0x80`, then by the fewest zeros that let eight more
bytes complete a block, and these eight bytes hold its length in bits. -/
def Pads (message padded : Bytes) : Prop :=
  ∃ zeros field,
    padded = message ++ [0x80] ++ List.replicate zeros 0 ++ field ∧
    field.length = 8 ∧
    Nat.ofDigits 256 (field.map UInt8.toNat).reverse = 8 * message.length ∧
    IsLeast {count | 64 ∣ message.length + 1 + count + 8} zeros

/-- The word `t` of block `i`: four bytes in a row. -/
def blockWord (padded : Bytes) (i t : Nat) : Word :=
  byteAt 0 ++ byteAt 1 ++ byteAt 2 ++ byteAt 3
where
  byteAt (j : Nat) : BitVec 8 := (padded.getD (64 * i + 4 * t + j) 0).toBitVec

/-! ## Hash values -/

/-- The eight words of a hash value, or of the working variables. -/
structure State where
  a : Word
  b : Word
  c : Word
  d : Word
  e : Word
  f : Word
  g : Word
  h : Word
  deriving DecidableEq, Repr

namespace State

def initial : State where
  a := rootBits 2 (primes.getD 0 0)
  b := rootBits 2 (primes.getD 1 0)
  c := rootBits 2 (primes.getD 2 0)
  d := rootBits 2 (primes.getD 3 0)
  e := rootBits 2 (primes.getD 4 0)
  f := rootBits 2 (primes.getD 5 0)
  g := rootBits 2 (primes.getD 6 0)
  h := rootBits 2 (primes.getD 7 0)

instance : Add State where
  add s v :=
    { a := s.a + v.a, b := s.b + v.b, c := s.c + v.c, d := s.d + v.d,
      e := s.e + v.e, f := s.f + v.f, g := s.g + v.g, h := s.h + v.h }

def round (v : State) (constant word : Word) : State :=
  let t1 := v.h + bigSigma1 v.e + ch v.e v.f v.g + constant + word
  let t2 := bigSigma0 v.a + maj v.a v.b v.c
  { a := t1 + t2, b := v.a, c := v.b, d := v.c, e := v.d + t1, f := v.e, g := v.f, h := v.g }

/-- The eight words in a row, each as four bytes. -/
def bytes (s : State) : Bytes := [s.a, s.b, s.c, s.d, s.e, s.f, s.g, s.h].flatMap wordBytes
where
  wordBytes (w : Word) : Bytes :=
    [⟨w.extractLsb' 24 8⟩, ⟨w.extractLsb' 16 8⟩, ⟨w.extractLsb' 8 8⟩, ⟨w.extractLsb' 0 8⟩]

end State

/-- The word `t` of the schedule that the words of a block begin. -/
def scheduleWord (word : Nat → Word) (t : Nat) : Word :=
  if t < 16 then word t
  else smallSigma1 (scheduleWord word (t - 2)) + scheduleWord word (t - 7)
    + smallSigma0 (scheduleWord word (t - 15)) + scheduleWord word (t - 16)
termination_by t

/-- The working variables after `t` rounds over a schedule. -/
def working (start : State) (word : Nat → Word) : Nat → State
  | 0 => start
  | t + 1 => (working start word t).round (constant t) (word t)

/-- The hash value after the first blocks of a padded message. -/
def hashAfter (padded : Bytes) : Nat → State
  | 0 => State.initial
  | i + 1 =>
      let start := hashAfter padded i
      start + working start (scheduleWord (blockWord padded i)) 64

/-- The hash of a padded message. -/
def hash (padded : Bytes) : Bytes := (hashAfter padded (padded.length / 64)).bytes

end IdMint.Sha256.Standard
