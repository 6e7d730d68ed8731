import IdMint.Text.Bytes
import IdMint.Text.Numeral

/-!
# Big-endian words

A word as bytes, most significant first. Written to a fixed width, a number
loses whatever lies above it.
-/

namespace IdMint.BigEndian

/-- The low `width` bytes of a number, most significant first. -/
def ofNat : Nat → Nat → Bytes
  | 0, _ => []
  | width + 1, n => ofNat width (n / 256) ++ [n.toUInt8]

/-- The number that a list of bytes denotes. -/
def toNat (bytes : Bytes) : Nat := Numeral.value 256 (bytes.map UInt8.toNat)

/-- The 32-bit word that four bytes denote. -/
def toUInt32 (bytes : Bytes) : UInt32 := UInt32.ofNat (toNat bytes)

end IdMint.BigEndian
