import IdMint.Text.Bytes

/-!
# UTF-8

Text is bytes everywhere in this library, but a document has to be UTF-8. Whether a text
is can be decided byte by byte: the first byte of a character says how many more belong to
it, and what remains to be remembered is where these have to lie.

The first of them has a narrower range after some bytes. It leaves out what has a shorter
form, the surrogates, and all that is past the last code point.
-/

namespace IdMint.Utf8

/-- The range of a byte that is not the first of its character. -/
def continuation : UInt8 × UInt8 := (0x80, 0xbf)

/-- The ranges of the bytes that belong to the character after its first byte, if any
character begins with that. -/
def following? (first : UInt8) : Option (List (UInt8 × UInt8)) :=
  if first ≤ 0x7f then some []
  else if first < 0xc2 then none
  else if first ≤ 0xdf then some [continuation]
  else if first = 0xe0 then some [(0xa0, 0xbf), continuation]
  else if first = 0xed then some [(0x80, 0x9f), continuation]
  else if first ≤ 0xef then some [continuation, continuation]
  else if first = 0xf0 then some [(0x90, 0xbf), continuation, continuation]
  else if first ≤ 0xf3 then some [continuation, continuation, continuation]
  else if first = 0xf4 then some [(0x80, 0x8f), continuation, continuation]
  else none

/-- What a character still owes after one more byte, or the character after it. -/
def step : List (UInt8 × UInt8) → UInt8 → Option (List (UInt8 × UInt8))
  | [], b => following? b
  | (least, greatest) :: owed, b => if least ≤ b ∧ b ≤ greatest then some owed else none

/-- The text is UTF-8: no byte is out of place, and no character lacks one. -/
def IsText (text : Bytes) : Prop := text.foldlM step [] = some []

instance (text : Bytes) : Decidable (IsText text) :=
  inferInstanceAs (Decidable (_ = _))

end IdMint.Utf8
