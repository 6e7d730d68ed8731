import IdMint.Text.BigEndian
import IdMint.Text.Hex

/-!
# SHA-256

Three stages, each a function of its own. `pad` completes the message to whole
blocks of 64 bytes: one byte `0x80`, as few zeros as will do, and the length in
bits. `schedule` stretches a block of sixteen words to sixty-four, each new
word made from four earlier ones. `compress` stirs the schedule into the eight
registers, sixty-four rounds, and adds what came out to what went in.

The schedule is grown newest word first, so the four words that a new one
needs stand at fixed places of the list.
-/

namespace IdMint.Sha256

/-- The eight words that a block is stirred into. -/
structure Registers where
  a : UInt32
  b : UInt32
  c : UInt32
  d : UInt32
  e : UInt32
  f : UInt32
  g : UInt32
  h : UInt32
  deriving DecidableEq, Repr

def Registers.initial : Registers where
  a := 0x6a09e667
  b := 0xbb67ae85
  c := 0x3c6ef372
  d := 0xa54ff53a
  e := 0x510e527f
  f := 0x9b05688c
  g := 0x1f83d9ab
  h := 0x5be0cd19

def Registers.toList (r : Registers) : List UInt32 := [r.a, r.b, r.c, r.d, r.e, r.f, r.g, r.h]

/-- Sums of registers, word by word and modulo `2 ^ 32`. -/
instance : Add Registers where
  add r s :=
    { a := r.a + s.a, b := r.b + s.b, c := r.c + s.c, d := r.d + s.d,
      e := r.e + s.e, f := r.f + s.f, g := r.g + s.g, h := r.h + s.h }

def roundConstants : List UInt32 :=
  [0x428a2f98, 0x71374491, 0xb5c0fbcf, 0xe9b5dba5, 0x3956c25b, 0x59f111f1, 0x923f82a4, 0xab1c5ed5,
   0xd807aa98, 0x12835b01, 0x243185be, 0x550c7dc3, 0x72be5d74, 0x80deb1fe, 0x9bdc06a7, 0xc19bf174,
   0xe49b69c1, 0xefbe4786, 0x0fc19dc6, 0x240ca1cc, 0x2de92c6f, 0x4a7484aa, 0x5cb0a9dc, 0x76f988da,
   0x983e5152, 0xa831c66d, 0xb00327c8, 0xbf597fc7, 0xc6e00bf3, 0xd5a79147, 0x06ca6351, 0x14292967,
   0x27b70a85, 0x2e1b2138, 0x4d2c6dfc, 0x53380d13, 0x650a7354, 0x766a0abb, 0x81c2c92e, 0x92722c85,
   0xa2bfe8a1, 0xa81a664b, 0xc24b8b70, 0xc76c51a3, 0xd192e819, 0xd6990624, 0xf40e3585, 0x106aa070,
   0x19a4c116, 0x1e376c08, 0x2748774c, 0x34b0bcb5, 0x391c0cb3, 0x4ed8aa4a, 0x5b9cca4f, 0x682e6ff3,
   0x748f82ee, 0x78a5636f, 0x84c87814, 0x8cc70208, 0x90befffa, 0xa4506ceb, 0xbef9a3f7, 0xc67178f2]

/-- Rotation to the right by `n` places, for `0 < n < 32`. -/
def rotr (x n : UInt32) : UInt32 := (x >>> n) ||| (x <<< (32 - n))

/-- The mixing of the word fifteen places back. -/
def smallSigma0 (x : UInt32) : UInt32 := rotr x 7 ^^^ rotr x 18 ^^^ (x >>> 3)

/-- The mixing of the word two places back. -/
def smallSigma1 (x : UInt32) : UInt32 := rotr x 17 ^^^ rotr x 19 ^^^ (x >>> 10)

/-- The mixing of register `a`. -/
def bigSigma0 (x : UInt32) : UInt32 := rotr x 2 ^^^ rotr x 13 ^^^ rotr x 22

/-- The mixing of register `e`. -/
def bigSigma1 (x : UInt32) : UInt32 := rotr x 6 ^^^ rotr x 11 ^^^ rotr x 25

/-- Bit by bit, `y` where `x` is set and `z` elsewhere. -/
def choose (x y z : UInt32) : UInt32 := (x &&& y) ^^^ (~~~x &&& z)

/-- Bit by bit, what at least two of the three say. -/
def majority (x y z : UInt32) : UInt32 := (x &&& y) ^^^ (x &&& z) ^^^ (y &&& z)

/-- The word that follows a schedule, whose words are listed newest first. -/
def nextWord (newestFirst : List UInt32) : UInt32 :=
  newestFirst.getD 15 0 + smallSigma0 (newestFirst.getD 14 0) + newestFirst.getD 6 0
    + smallSigma1 (newestFirst.getD 1 0)

/-- A schedule, newest word first, grown by a number of words. -/
def extend : Nat → List UInt32 → List UInt32
  | 0, newestFirst => newestFirst
  | n + 1, newestFirst => extend n (nextWord newestFirst :: newestFirst)

/-- The sixty-four words of a block of sixteen. -/
def schedule (words : List UInt32) : List UInt32 := (extend 48 words.reverse).reverse

/-- One round, with its constant and its word of the schedule. -/
def round (r : Registers) (constant word : UInt32) : Registers :=
  let t1 := r.h + bigSigma1 r.e + choose r.e r.f r.g + constant + word
  let t2 := bigSigma0 r.a + majority r.a r.b r.c
  { a := t1 + t2, b := r.a, c := r.b, d := r.c, e := r.d + t1, f := r.e, g := r.f, h := r.g }

/-- The registers after a block of sixteen words. -/
def compress (r : Registers) (words : List UInt32) : Registers :=
  r + (roundConstants.zip (schedule words)).foldl (fun s kw => round s kw.1 kw.2) r

/-- How many zeros stand between the byte `0x80` and the length: the fewest that
complete a block. -/
def zeroCount (length : Nat) : Nat := (119 - length % 64) % 64

def pad (message : Bytes) : Bytes :=
  message ++ 0x80 :: List.replicate (zeroCount message.length) 0
    ++ BigEndian.ofNat 8 (8 * message.length)

/-- The first `count` groups of `size` bytes each. -/
def groups (size : Nat) : Nat → Bytes → List Bytes
  | 0, _ => []
  | count + 1, bytes => bytes.take size :: groups size count (bytes.drop size)

/-- The sixteen words of a block. -/
def blockWords (block : Bytes) : List UInt32 := (groups 4 16 block).map BigEndian.toUInt32

def blocks (padded : Bytes) : List (List UInt32) :=
  (groups 64 (padded.length / 64) padded).map blockWords

def digest (message : Bytes) : Bytes :=
  ((blocks (pad message)).foldl compress Registers.initial).toList.flatMap fun word =>
    BigEndian.ofNat 4 word.toNat

def hexDigest (message : Bytes) : Bytes := Hex.ofBytes (digest message)

end IdMint.Sha256
