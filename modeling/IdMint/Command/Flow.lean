import IdMint.Command.Outcome

/-!
# Issuing flow numbers

`flow-no` issues numbers under one tag from a sequence of its own, which starts
afresh with every run. The tag may be empty.
-/

namespace IdMint.Command

structure FlowConfig where
  tag : Bytes := []
  count : Int := 1
  deriving DecidableEq, Repr

/-- Why the request is not carried out, if it is not. -/
def FlowConfig.error? (c : FlowConfig) : Option RequestError := countError? c.count

def flowFlags : List (Flag FlowConfig) :=
  [valueFlag "--prefix" "Business prefix, upper-cased in the output (default empty)" some
     fun tag c => { c with tag },
   valueFlag "--count" "Number of flow numbers to generate (default 1)" integer?
     fun count c => { c with count }]

variable {κ ρ : Type} [Source κ Instant] [Source ρ Draw]

def flowBatch (config : FlowConfig) (q : Flow.Sequence) (clock : Supply κ)
    (random : Supply ρ) : Option (Flow.Issued κ ρ FlowBatch) := do
  let issued ← Flow.issueMany config.tag config.count.toNat q clock random
  some
    { value := { tag := config.tag, numbers := issued.value }
      sequence := issued.sequence, clock := issued.clock, random := issued.random }

def issueFlowNumbers (arguments : List Bytes) (clock : Supply κ) (random : Supply ρ) :
    Option Outcome :=
  let parsed := parseOptions flowFlags arguments {}
  if ¬ parsed.isFine ∨ parsed.positional ≠ [] then
    some (misused parsed (callText "flow-no [options]") flowFlags)
  else
    match parsed.config.error? with
    | some e => some (.failure (line e.message))
    | none => do
      let issued ← flowBatch parsed.config {} clock random
      some (.success (.flowNumbers issued.value) [])

end IdMint.Command
