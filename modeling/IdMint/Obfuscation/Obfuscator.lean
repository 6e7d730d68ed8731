import IdMint.Obfuscation.BitTable

/-!
# Masking integers

An id that counts upwards tells a stranger how many came before it. Here it is
masked: combined with a key by exclusive or, and its bits moved by the fixed
table, which every masked value already handed out depends on.

This hides a sequence and protects no secret. The table is public and exclusive or
is its own inverse, so a single value known in both forms gives the key away:
`recoverKey` computes it.
-/

namespace IdMint

/-- The key that stands in for the key zero. -/
def defaultKey : Int64 := 0x5a5a5a5a5a5a5a5a

/-- A mask for integers, set up with the key that is really used. -/
structure Obfuscator where
  key : Int64
  /-- A key of zero would leave values in place but for the table, and is never used. -/
  key_ne_zero : key ≠ 0
  deriving DecidableEq, Repr

namespace Obfuscator

/-- The mask of a key, the default key standing in for zero. -/
def ofKey (key : Int64) : Obfuscator :=
  if h : key = 0 then ⟨defaultKey, by decide⟩ else ⟨key, h⟩

/-- The masked form of an integer. -/
def obfuscate (o : Obfuscator) (id : Int64) : Int64 :=
  (BitTable.fixed.permute (id.toUInt64 ^^^ o.key.toUInt64)).toInt64

/-- The integer that a masked form stands for. -/
def deobfuscate (o : Obfuscator) (code : Int64) : Int64 :=
  (BitTable.fixedInverse.permute code.toUInt64 ^^^ o.key.toUInt64).toInt64

end Obfuscator

/-- The key under which a plain value has a given masked form. -/
def recoverKey (plain masked : Int64) : Int64 :=
  (BitTable.fixedInverse.permute masked.toUInt64 ^^^ plain.toUInt64).toInt64

end IdMint
