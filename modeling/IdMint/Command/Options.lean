import IdMint.Text.Decimal

/-!
# Reading options

Arguments are read from left to right. A known flag is handled at once, with
the argument after it if it takes a value, whatever that argument looks
like. A lone `--` ends the flags, and all that follows is positional. An argument
that starts with a minus sign and is neither a flag nor a number is an
unknown option, and the rest is positional.

A problem does not end the pass: the flags after it are still handled, so that
one run reports them all. The arguments are fine if there was no problem. What a
handler writes is taken over as it is, whether it accepts its value or not.
-/

namespace IdMint.Command

/-- What handling a flag leads to. -/
structure Handled (γ : Type) where
  /-- The configuration afterwards. It may have changed even if the flag was not fine. -/
  config : γ
  /-- Whether the flag was fine. -/
  isAccepted : Bool
  /-- What was written to the error stream, as it is. -/
  report : Bytes
  deriving DecidableEq, Repr

def Handled.accepted {γ : Type} (config : γ) (report : Bytes := []) : Handled γ :=
  { config, isAccepted := true, report }

def Handled.rejected {γ : Type} (config : γ) (report : Bytes) : Handled γ :=
  { config, isAccepted := false, report }

/-- A flag that a command knows, for configurations of type `γ`. -/
structure Flag (γ : Type) where
  /-- Its name, minus signs included. -/
  name : Bytes
  /-- Whether it takes the argument after it as its value. -/
  takesValue : Bool := false
  description : Bytes := []
  /-- What it does, given its value or the empty text. -/
  handle : Bytes → γ → Handled γ

/-- What a list of arguments came to. -/
structure Parsed (γ : Type) where
  config : γ
  positional : List Bytes := []
  /-- Whether there was no problem. -/
  isFine : Bool := true
  /-- All that was written to the error stream. -/
  report : Bytes := []
  deriving DecidableEq, Repr

namespace Parsed

variable {γ : Type}

/-- The same behind a flag that was handled. -/
def afterHandled (handled : Handled γ) (p : Parsed γ) : Parsed γ :=
  { p with isFine := handled.isAccepted && p.isFine, report := handled.report ++ p.report }

/-- The same behind a problem that was reported. -/
def afterProblem (report : Bytes) (p : Parsed γ) : Parsed γ :=
  { p with isFine := false, report := report ++ p.report }

/-- The same with a positional argument in front of its own. -/
def withPositional (argument : Bytes) (p : Parsed γ) : Parsed γ :=
  { p with positional := argument :: p.positional }

end Parsed

def unknownOption (argument : Bytes) : Bytes := ascii "Unknown option: " ++ argument ++ ascii "\n"

def missingValue (flag : Bytes) : Bytes := ascii "Option " ++ flag ++ ascii " requires a value\n"

variable {γ : Type}

/-- The flag of a name; of several with one name the last. -/
def findFlag? (flags : List (Flag γ)) (name : Bytes) : Option (Flag γ) :=
  flags.reverse.find? fun flag => flag.name = name

/-- Whether an argument that is no flag is taken for a misspelt one. -/
def LooksLikeOption (argument : Bytes) : Prop :=
  argument.head? = some '-'.toUInt8 ∧ Decimal.parseInt64? argument = none

instance (argument : Bytes) : Decidable (LooksLikeOption argument) :=
  inferInstanceAs (Decidable (_ ∧ _))

/-- Goes through a list of arguments, starting from a configuration. -/
def parseOptions (flags : List (Flag γ)) : List Bytes → γ → Parsed γ
  | [], config => { config }
  | argument :: rest, config =>
    if argument = ascii "--" then { config, positional := rest }
    else
      match findFlag? flags argument with
      | some flag =>
        if flag.takesValue then
          match rest with
          | [] => ({ config } : Parsed γ).afterProblem (missingValue argument)
          | value :: rest =>
            let handled := flag.handle value config
            (parseOptions flags rest handled.config).afterHandled handled
        else
          let handled := flag.handle [] config
          (parseOptions flags rest handled.config).afterHandled handled
      | none =>
        if LooksLikeOption argument then
          (parseOptions flags rest config).afterProblem (unknownOption argument)
        else (parseOptions flags rest config).withPositional argument

def Flag.usage (flag : Flag γ) : Bytes :=
  ascii "  " ++ flag.name ++ (if flag.takesValue then ascii " <value>" else [])
    ++ ascii "\n      " ++ flag.description ++ ascii "\n"

/-- How a command is called, and its flags. -/
def usage (call : Bytes) (flags : List (Flag γ)) : Bytes :=
  ascii "Usage: " ++ call ++ ascii "\n" ++ flags.flatMap Flag.usage

end IdMint.Command
