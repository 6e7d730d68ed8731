import IdMint.Text.Decimal
import IdMint.Text.Hex
import IdMint.Text.Utf8

/-!
# Documents

What the program prints on success is one document of numbers, texts, lists
and named members. It is laid out over lines, two blanks deeper at each level,
and members keep the order in which they were put in.

In a text the quote, the backslash and the control characters are escaped, and
every other byte is written as it is. So a document can be written only if its texts
are UTF-8, the names of its members among them. Of any other document nothing is
written at all.
-/

namespace IdMint

inductive Json where
  | int (n : Int)
  | text (t : Bytes)
  | list (items : List Json)
  | members (entries : List (Bytes × Json))

namespace Json

/-- A byte of a text, escaped where it has to be. -/
def escapeByte (b : UInt8) : Bytes :=
  if b = '"'.toUInt8 then ascii "\\\""
  else if b = '\\'.toUInt8 then ascii "\\\\"
  else if b = 8 then ascii "\\b"
  else if b = 9 then ascii "\\t"
  else if b = 10 then ascii "\\n"
  else if b = 12 then ascii "\\f"
  else if b = 13 then ascii "\\r"
  else if b < 32 then ascii "\\u00" ++ Hex.ofByte b
  else [b]

def quote (t : Bytes) : Bytes := ascii "\"" ++ t.flatMap escapeByte ++ ascii "\""

def lineBreak (depth : Nat) : Bytes := ascii "\n" ++ List.replicate (2 * depth) ' '.toUInt8

/-- Parts between brackets, each on a line of its own; nothing between the brackets
when there are none. -/
def enclose (left right : UInt8) (depth : Nat) (parts : List Bytes) : Bytes :=
  if parts.isEmpty then [left, right]
  else
    left :: (ascii ",").intercalate (parts.map (lineBreak (depth + 1) ++ ·))
      ++ lineBreak depth ++ [right]

mutual

/-- The text of a document that stands at a depth. -/
def render (depth : Nat) : Json → Bytes
  | .int n => Decimal.ofInt n
  | .text t => quote t
  | .list items => enclose '['.toUInt8 ']'.toUInt8 depth (renderItems (depth + 1) items)
  | .members entries => enclose 0x7b 0x7d depth (renderEntries (depth + 1) entries)

def renderItems (depth : Nat) : List Json → List Bytes
  | [] => []
  | item :: items => item.render depth :: renderItems depth items

def renderEntries (depth : Nat) : List (Bytes × Json) → List Bytes
  | [] => []
  | (name, value) :: entries =>
    (quote name ++ ascii ": " ++ value.render depth) :: renderEntries depth entries

end

mutual

/-- All texts in a document, the names of its members among them. -/
def texts : Json → List Bytes
  | .int _ => []
  | .text t => [t]
  | .list items => itemTexts items
  | .members entries => entryTexts entries

def itemTexts : List Json → List Bytes
  | [] => []
  | item :: items => item.texts ++ itemTexts items

def entryTexts : List (Bytes × Json) → List Bytes
  | [] => []
  | (name, value) :: entries => name :: value.texts ++ entryTexts entries

end

/-- The document as it is printed, or `none` if there is a text in it that is not UTF-8. -/
def dump? (j : Json) : Option Bytes :=
  if ∀ t ∈ j.texts, Utf8.IsText t then some (j.render 0) else none

end Json

end IdMint
