import IdMint.Command.Flow
import IdMint.Command.Issue
import IdMint.Command.Mask

/-!
# The program

The first argument names the command, the others are its own. Help goes to the
error stream like everything that is no document, and asking for it is a
success.

A run is a function of the arguments, the machine, the clock and the random source,
and of nothing else.
-/

namespace IdMint.Command

inductive Request where
  | ids
  | flowNumbers
  | masking (direction : Obfuscation.Direction)
  | identity
  | help
  deriving DecidableEq, Repr

def requests : List (Bytes × Request) :=
  [(ascii "snowflake", .ids),
   (ascii "flow-no", .flowNumbers),
   (ascii "obfuscate", .masking .mask),
   (ascii "deobfuscate", .masking .unmask),
   (ascii "worker-identity", .identity),
   (ascii "help", .help),
   (ascii "--help", .help),
   (ascii "-h", .help)]

def helpText : Bytes :=
  [ "idforge_cli v0.1",
    "Usage: idforge_cli <command> [options]",
    "",
    "Commands:",
    "  snowflake        Generate snowflake ids "
      ++ "[--worker-id N] [--datacenter-id N] [--count N] [--short | --explain]",
    "  flow-no          Generate flow numbers [--prefix P] [--count N]",
    "  obfuscate        Mask integer ids [--key K] <id>...",
    "  deobfuscate      Unmask integer ids [--key K] <code>...",
    "  worker-identity  Show the resolved worker identity and machine fingerprint",
    "",
    "Environment:",
    "  IDWORKER_WORKER_ID, IDWORKER_DATACENTER_ID  worker identity in [0, 31]" ].flatMap
    fun text => line (ascii text)

variable {κ ρ : Type} [Source κ Instant] [Source ρ Draw]

/-- Answers a request, given its arguments. -/
def Request.run (r : Request) (arguments : List Bytes) (host : Host) (clock : Supply κ)
    (random : Supply ρ) : Option Outcome :=
  match r with
  | .ids => issueIds arguments host clock
  | .flowNumbers => issueFlowNumbers arguments clock random
  | .masking direction => some (maskValues direction arguments)
  | .identity => showIdentity arguments host clock
  | .help => some { exitCode := 0, document := none, remarks := helpText }

/-- What the command that the arguments name comes to; `none` only if the clock or the random
source was used up. -/
def run (arguments : List Bytes) (host : Host) (clock : Supply κ) (random : Supply ρ) :
    Option Outcome :=
  match arguments with
  | [] => some (.failure helpText)
  | name :: arguments =>
    match requests.lookup name with
    | some request => request.run arguments host clock random
    | none => some (.failure (line (ascii "Unknown command: " ++ name) ++ helpText))

/-- Runs the program to its end, printing included; `none` as before. -/
def execute (arguments : List Bytes) (host : Host) (clock : Supply κ) (random : Supply ρ) :
    Option Ending :=
  (run arguments host clock random).map Outcome.print

end IdMint.Command
