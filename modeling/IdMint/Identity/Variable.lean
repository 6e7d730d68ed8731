import IdMint.Snowflake.Address

/-!
# Ids from variables

An operator may give a worker or a datacenter id in a variable of its own. A
variable that is unset or empty says nothing, which is different from saying
something wrong: the first lets another way of finding the id take over, the
second has to stop the program.

The text is a decimal number, and a plus sign in front of it is allowed here.
-/

namespace IdMint

/-- How variables are looked up: the text of a name, if it is set. -/
abbrev Environment := Bytes → Option Bytes

namespace Environment

/-- Looks names up in the entries of a process, each of the form `NAME=VALUE`: what
counts is the first entry that begins with the name and an equals sign. A name
ends at its first zero byte, and an empty one is never set. -/
def ofEntries (entries : List Bytes) : Environment := fun name =>
  let name := name.takeWhile (· ≠ 0)
  if name.isEmpty then none
  else entries.findSome? ((name ++ ascii "=").isPrefixOf? ·)

end Environment

def Role.variableName : Role → Bytes
  | .worker => ascii "IDWORKER_WORKER_ID"
  | .datacenter => ascii "IDWORKER_DATACENTER_ID"

inductive VariableError where
  | notSet
  /-- Its text is not a decimal number of 64 bits. -/
  | notDecimal (text : Bytes)
  /-- Its value is negative or above the greatest id. -/
  | outOfRange (max id : Int)
  deriving DecidableEq, Repr

def VariableError.message (name : Bytes) : VariableError → Bytes
  | .notSet => name ++ ascii " is not set"
  | .notDecimal text => name ++ ascii " is not a decimal integer: '" ++ text ++ ascii "'"
  | .outOfRange max id =>
    name ++ ascii " is outside " ++ rangeText max ++ ascii ": " ++ Decimal.ofInt id

/-- The text after a leading plus sign, if there is one; nothing is left of `+-`, two
signs being one too many. -/
def withoutPlus (text : Bytes) : Bytes :=
  match text with
  | [] => []
  | b :: rest =>
    if b = '+'.toUInt8 then
      if rest.head? = some '-'.toUInt8 then [] else rest
    else text

/-- The id that the text of a variable gives. -/
def readId (max : Int) (text? : Option Bytes) : Except VariableError Int :=
  let text := text?.getD []
  if text.isEmpty then .error .notSet
  else
    match Decimal.parseInt64? (withoutPlus text) with
    | none => .error (.notDecimal text)
    | some id =>
      if 0 ≤ id.toInt ∧ id.toInt ≤ max then .ok id.toInt
      else .error (.outOfRange max id.toInt)

def Role.readVariable (role : Role) (env : Environment) : Except VariableError Int :=
  readId maxAddressId (env role.variableName)

end IdMint
