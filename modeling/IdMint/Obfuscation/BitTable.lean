/-!
# Moving the bits of a word

A table sends each of the 64 bits of a word to a place. Where two bits are
sent to one place the result has the bit set as soon as one of them is, so
every table moves every word; a table that is one-to-one loses nothing and is
undone by its inverse.

The inverse is read off the table bit by bit. A place that no bit was sent to is
given bit 0, and a place that several were sent to is given the last of them.

One table is in use, `fixed`, and it never changes. It keeps each half of the word
within itself.
-/

namespace IdMint

/-- For each bit of a word, the place that it is moved to. -/
structure BitTable where
  /-- The place of each bit, from bit 0 up. -/
  places : Vector (Fin 64) 64
  deriving DecidableEq, Repr

namespace BitTable

def place (t : BitTable) (i : Fin 64) : Fin 64 := t.places.get i

/-- Bit `i` of a word, in place 0. -/
def bitAt (word : UInt64) (i : Fin 64) : UInt64 := (word >>> UInt64.ofNat i.val) &&& 1

/-- Bit `i` of a word, in the place that it is moved to. -/
def moveBit (t : BitTable) (word : UInt64) (i : Fin 64) : UInt64 :=
  bitAt word i <<< UInt64.ofNat (t.place i).val

def permute (t : BitTable) (word : UInt64) : UInt64 :=
  (List.finRange 64).foldl (fun moved i => moved ||| t.moveBit word i) 0

/-- The table that sends each place back to the bit that was moved there. -/
def inverse (t : BitTable) : BitTable :=
  ⟨(List.finRange 64).foldl (fun back i => back.set (t.place i).val i)
    (Vector.replicate 64 0)⟩

/-- The table that masked values are made with. -/
def fixed : BitTable :=
  ⟨#v[7, 22, 13, 8, 30, 24, 17, 2, 28, 19, 11, 29, 5, 20, 15, 31,
      0, 12, 25, 21, 4, 10, 16, 1, 27, 23, 6, 14, 9, 3, 26, 18,
      45, 58, 41, 50, 62, 56, 49, 34, 60, 51, 43, 61, 37, 52, 47, 63,
      32, 44, 57, 53, 36, 42, 48, 33, 59, 55, 38, 46, 40, 35, 54, 39]⟩

def fixedInverse : BitTable := fixed.inverse

end BitTable

end IdMint
