import IdMint.Obfuscation.Obfuscator
import IdMint.Text.Decimal
import IdMint.Text.Hex

/-!
# Keys as text

A key is written as the sixteen hexadecimal digits of its bit pattern. It is
read in that form, with up to sixteen digits of either case, or as a
decimal number; `0x` with a malformed rest is not tried as a decimal.
-/

namespace IdMint.Key

/-- The text of a key: `0x` and sixteen digits. -/
def format (key : Int64) : Bytes := ascii "0x" ++ Hex.ofUInt64 key.toUInt64

/-- What follows the mark of a hexadecimal key, if anything does. -/
def hexPart? : Bytes → Option Bytes
  | zero :: mark :: digit :: digits =>
    if zero = '0'.toUInt8 ∧ (mark = 'x'.toUInt8 ∨ mark = 'X'.toUInt8) then
      some (digit :: digits)
    else none
  | _ => none

/-- The key that a text denotes. -/
def parse? (text : Bytes) : Option Int64 :=
  match hexPart? text with
  | some digits => (Hex.parseUInt64? digits).map UInt64.toInt64
  | none => Decimal.parseInt64? text

end IdMint.Key
