import IdMint.Text.Bytes
import IdMint.Text.Numeral

/-!
# Base 62

The short form of an id: digits, then lower case, then capitals, most
significant first. The order of the alphabet is part of the format, since
texts already handed out depend on it.

Zero has no digits and so has the empty text, and a negative number is given
the empty text too. Reading takes any number of leading zeros and refuses a
foreign byte or a value above the signed 64-bit range.
-/

namespace IdMint.Base62

def digitByte (d : Nat) : UInt8 :=
  if d < 10 then '0'.toUInt8 + d.toUInt8
  else if d < 36 then 'a'.toUInt8 + (d - 10).toUInt8
  else 'A'.toUInt8 + (d - 36).toUInt8

def digitValue? (b : UInt8) : Option Nat :=
  if '0'.toUInt8 ≤ b ∧ b ≤ '9'.toUInt8 then some (b.toNat - '0'.toNat)
  else if 'a'.toUInt8 ≤ b ∧ b ≤ 'z'.toUInt8 then some (b.toNat - 'a'.toNat + 10)
  else if 'A'.toUInt8 ≤ b ∧ b ≤ 'Z'.toUInt8 then some (b.toNat - 'A'.toNat + 36)
  else none

/-- The base 62 text of a number; empty for zero and below. -/
def encode (n : Int64) : Bytes := (Numeral.digits 62 n.toInt.toNat).map digitByte

/-- The number that a text denotes, if every byte is a digit and the value fits. -/
def decode? (text : Bytes) : Option Int64 := do
  let ds ← text.mapM digitValue?
  let n ← Numeral.boundedValue? 62 Int64.maxValue.toNatClampNeg ds
  some (Int64.ofInt n)

end IdMint.Base62
