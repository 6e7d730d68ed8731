/-!
# Text is bytes

Names, arguments, environment values and messages all reach the program as
bytes, and nothing promises that they are valid in any encoding. So text is a
list of bytes here from end to end. A message that quotes an argument quotes
it byte for byte, and only a document that is about to be printed is asked whether
its texts are characters.

Case is ASCII case: the twenty-six letters move, every other byte stays, so a
change of case never changes a length.
-/

namespace IdMint

/-- A text, as the bytes it is stored in. -/
abbrev Bytes := List UInt8

/-- The bytes of a literal that holds ASCII characters only. -/
def ascii (literal : String) : Bytes := literal.toList.map Char.toUInt8

namespace Ascii

/-- How far a lower-case letter stands above its capital. -/
def caseOffset : UInt8 := 32

/-- The capital of a lower-case letter, and any other byte unchanged. -/
def upperByte (b : UInt8) : UInt8 :=
  if 'a'.toUInt8 ≤ b ∧ b ≤ 'z'.toUInt8 then b - caseOffset else b

/-- The lower-case form of a capital, and any other byte unchanged. -/
def lowerByte (b : UInt8) : UInt8 :=
  if 'A'.toUInt8 ≤ b ∧ b ≤ 'Z'.toUInt8 then b + caseOffset else b

def upper (text : Bytes) : Bytes := text.map upperByte

def lower (text : Bytes) : Bytes := text.map lowerByte

@[simp] theorem length_upper (text : Bytes) : (upper text).length = text.length := by
  simp [upper]

@[simp] theorem length_lower (text : Bytes) : (lower text).length = text.length := by
  simp [lower]

end Ascii

end IdMint
