import IdMint.Obfuscation.Key

/-!
# Masking a list of texts

The values come as texts and are masked or unmasked one by one, in order. One text
that is no integer makes the whole report fail, and the first such text is the
one that is named.
-/

namespace IdMint.Obfuscation

/-- Which way values are taken. -/
inductive Direction where
  | mask
  | unmask
  deriving DecidableEq, Repr

/-- The value taken in the given direction. -/
def Direction.apply (o : Obfuscator) : Direction → Int64 → Int64
  | .mask => o.obfuscate
  | .unmask => o.deobfuscate

/-- A value and what it was taken to. -/
structure Entry where
  input : Int64
  output : Int64
  deriving DecidableEq, Repr

/-- The outcome for a list of values. -/
structure Report where
  key : Int64
  entries : List Entry
  deriving DecidableEq, Repr

/-- A text that is not a signed 64-bit integer. -/
structure NotInteger where
  text : Bytes
  deriving DecidableEq, Repr

/-- What is said about such a text. -/
def NotInteger.message (e : NotInteger) : Bytes :=
  ascii "not a 64-bit signed integer: '" ++ e.text ++ ascii "'"

/-- The entry of one text. -/
def Entry.ofText (o : Obfuscator) (direction : Direction) (text : Bytes) :
    Except NotInteger Entry :=
  match Decimal.parseInt64? text with
  | some input => .ok { input, output := direction.apply o input }
  | none => .error ⟨text⟩

/-- The report on a list of texts. -/
def report (o : Obfuscator) (direction : Direction) (texts : List Bytes) :
    Except NotInteger Report := do
  let entries ← texts.mapM (Entry.ofText o direction)
  .ok { key := o.key, entries }

end IdMint.Obfuscation
