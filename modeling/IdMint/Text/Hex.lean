import IdMint.Text.Bytes
import IdMint.Text.Numeral

/-!
# Hexadecimal text

Written in lower case, read in either. A byte takes two digits and a 64-bit
word sixteen, so the texts have a fixed width and leading zeros stay.
-/

namespace IdMint.Hex

/-- The lower-case character of a digit below sixteen. -/
def digitByte (d : Nat) : UInt8 :=
  if d < 10 then '0'.toUInt8 + d.toUInt8 else 'a'.toUInt8 + (d - 10).toUInt8

/-- The value of a digit's character, in either case. -/
def digitValue? (b : UInt8) : Option Nat :=
  if '0'.toUInt8 ≤ b ∧ b ≤ '9'.toUInt8 then some (b.toNat - '0'.toNat)
  else if 'a'.toUInt8 ≤ b ∧ b ≤ 'f'.toUInt8 then some (b.toNat - 'a'.toNat + 10)
  else if 'A'.toUInt8 ≤ b ∧ b ≤ 'F'.toUInt8 then some (b.toNat - 'A'.toNat + 10)
  else none

def ofByte (b : UInt8) : Bytes := [digitByte (b.toNat / 16), digitByte (b.toNat % 16)]

/-- The digits of a list of bytes, two for each. -/
def ofBytes (bytes : Bytes) : Bytes := bytes.flatMap ofByte

def word64Width : Nat := 16

def ofUInt64 (w : UInt64) : Bytes :=
  ((Numeral.digits 16 w.toNat).leftpad word64Width 0).map digitByte

/-- The 64-bit word written by one to sixteen digits. -/
def parseUInt64? (text : Bytes) : Option UInt64 :=
  if text.isEmpty ∨ word64Width < text.length then none
  else do
    let ds ← text.mapM digitValue?
    some (UInt64.ofNat (Numeral.value 16 ds))

end IdMint.Hex
