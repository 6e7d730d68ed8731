import IdMint.Command.Document
import IdMint.Command.Options

/-!
# How a run ends

A command either fails, with exit code 1 and an explanation, or succeeds with exit
code 0. Remarks and explanations go to the error stream, and a command that succeeds
has a document to print.

Printing it comes last, and it is the one thing left that can go wrong. A document that
cannot be written is a failure that nothing is prepared for: the process is aborted, with
an empty standard output and without an exit code of its own.

Every command begins alike: it reads its options, and if they are not in
order it explains its usage and fails.
-/

namespace IdMint.Command

/-- What a command comes to before its document, if it has one, is printed. -/
structure Outcome where
  /-- The exit code, provided that the document can be printed. -/
  exitCode : Nat
  document : Option Document
  /-- All that went to the error stream. -/
  remarks : Bytes
  deriving DecidableEq, Repr

namespace Outcome

def failure (remarks : Bytes) : Outcome := { exitCode := 1, document := none, remarks }

def success (document : Document) (remarks : Bytes) : Outcome :=
  { exitCode := 0, document := some document, remarks }

/-- The outcome with remarks in front of its own. -/
def after (remarks : Bytes) (o : Outcome) : Outcome :=
  { o with remarks := remarks ++ o.remarks }

end Outcome

def line (text : Bytes) : Bytes := text ++ ascii "\n"

/-- How the process ends, by what it has written to its two streams. -/
inductive Ending where
  | exited (code : Nat) (output remarks : Bytes)
  /-- Nothing was ready for the document that could not be printed. What the process writes
  while it is being aborted is not counted among the remarks. -/
  | aborted (remarks : Bytes)
  deriving DecidableEq, Repr

namespace Ending

/-- The exit code, if the process got as far as that. -/
def exitCode? : Ending → Option Nat
  | exited code _ _ => some code
  | aborted _ => none

/-- All that went to standard output. -/
def output : Ending → Bytes
  | exited _ output _ => output
  | aborted _ => []

/-- All that went to the error stream. -/
def remarks : Ending → Bytes
  | exited _ _ remarks => remarks
  | aborted remarks => remarks

end Ending

/-- Prints the document, if there is one, on a line of its own. -/
def Outcome.print (o : Outcome) : Ending :=
  match o.document with
  | none => .exited o.exitCode [] o.remarks
  | some document =>
    match document.toJson.dump? with
    | some text => .exited o.exitCode (line text) o.remarks
    | none => .aborted o.remarks

def errorLine (message : Bytes) : Bytes := line (ascii "Error: " ++ message)

/-- How a command is called: the name of the program and the rest. -/
def callText (rest : String) : Bytes := ascii "idforge_cli " ++ ascii rest

/-- The end of a command whose options are not in order. -/
def misused {γ : Type} (parsed : Parsed γ) (call : Bytes) (flags : List (Flag γ)) : Outcome :=
  .failure (parsed.report ++ usage call flags)

/-- What a flag reports of a value that it refuses. -/
def invalidValue (flag : String) (value : Bytes) : Bytes :=
  line (ascii "Invalid " ++ ascii flag ++ ascii ": " ++ value)

/-- A flag that takes a value, reads it with `parse?` and refuses what that does not
read. -/
def valueFlag {γ α : Type} (name description : String) (parse? : Bytes → Option α)
    (set : α → γ → γ) : Flag γ where
  name := ascii name
  takesValue := true
  description := ascii description
  handle value config :=
    match parse? value with
    | some a => .accepted (set a config)
    | none => .rejected config (invalidValue name value)

def plainFlag {γ : Type} (name description : String) (set : γ → γ) : Flag γ where
  name := ascii name
  description := ascii description
  handle _ config := .accepted (set config)

/-- The signed 64-bit integer that an argument denotes, as a number. -/
def integer? (argument : Bytes) : Option Int := (Decimal.parseInt64? argument).map Int64.toInt

/-- The greatest number of things that one run issues. -/
def maxCount : Int := 100000

inductive RequestError where
  | countOutOfRange (count : Int)
  | twoForms
  deriving DecidableEq, Repr

def RequestError.message : RequestError → Bytes
  | .countOutOfRange count =>
    ascii "Error: --count must be between 1 and " ++ Decimal.ofInt maxCount ++ ascii ", got "
      ++ Decimal.ofInt count
  | .twoForms => ascii "Error: --short and --explain cannot be combined"

def countError? (count : Int) : Option RequestError :=
  if 1 ≤ count ∧ count ≤ maxCount then none else some (.countOutOfRange count)

end IdMint.Command
