import IdMint.Text.Bytes
import IdMint.Text.Numeral

/-!
# Decimal text

What is written is the shortest numeral, a minus sign in front of a negative
number. What is read is wider by leading zeros and by nothing else: an
optional minus sign, then digits up to the very end of the text. A plus sign,
a blank or a second sign makes it no numeral, and so does a value outside the
signed 64-bit range.
-/

namespace IdMint.Decimal

def digitByte (d : Nat) : UInt8 := '0'.toUInt8 + d.toUInt8

def digitValue? (b : UInt8) : Option Nat :=
  if '0'.toUInt8 ≤ b ∧ b ≤ '9'.toUInt8 then some (b.toNat - '0'.toNat) else none

def ofNat (n : Nat) : Bytes :=
  if n = 0 then ascii "0" else (Numeral.digits 10 n).map digitByte

def ofInt (n : Int) : Bytes :=
  if n < 0 then ascii "-" ++ ofNat n.natAbs else ofNat n.natAbs

/-- The decimal text of an integer, filled up on the left with zeros to the given
width. -/
def padded (width : Nat) (n : Int) : Bytes := (ofInt n).leftpad width '0'.toUInt8

/-- The greatest signed 64-bit integer. -/
def int64Max : Nat := Int64.maxValue.toNatClampNeg

/-- The value of a text of one or more digits, if it is at most the limit. -/
def parseNat? (limit : Nat) (text : Bytes) : Option Nat :=
  if text.isEmpty then none
  else do
    let ds ← text.mapM digitValue?
    Numeral.boundedValue? 10 limit ds

/-- The signed 64-bit integer that a text denotes: a minus sign or none, then digits
and nothing after them. -/
def parseInt64? (text : Bytes) : Option Int64 :=
  match text with
  | [] => none
  | b :: rest =>
    if b = '-'.toUInt8 then (parseNat? (int64Max + 1) rest).map fun n => Int64.ofInt (-n)
    else (parseNat? int64Max (b :: rest)).map fun n => Int64.ofInt n

end IdMint.Decimal
