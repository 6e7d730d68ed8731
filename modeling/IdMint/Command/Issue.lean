import IdMint.Command.Outcome

/-!
# Issuing ids and showing the identity

`snowflake` and `worker-identity` settle the identity in the same way and say
so on the error stream: one line with both ids and where they came from, and a
warning for each that was derived. Ids given as options have not been checked
at that point, so an identity may be announced and then refused.

The first checks its count and its form before it looks at the machine at all. It
is the generator that refuses it an address; the second has no use for a
generator and checks the address by itself.
-/

namespace IdMint.Command

/-- The machine a command runs on, as far as it matters to commands. -/
structure Host where
  machine : Machine
  environment : Environment

/-- What the options of the two commands say. -/
structure IssueConfig where
  overrides : Overrides := {}
  count : Int := 1
  short : Bool := false
  explain : Bool := false
  deriving DecidableEq, Repr

namespace IssueConfig

/-- The form asked for; the short form wins. -/
def form (c : IssueConfig) : IdForm :=
  if c.short then .short else if c.explain then .explained else .number

/-- Why the request is not carried out, if it is not; a wrong count comes first. -/
def error? (c : IssueConfig) : Option RequestError :=
  (countError? c.count).or (if c.short ∧ c.explain then some .twoForms else none)

end IssueConfig

/-- The flag for an id of the identity. Unlike other flags it does not leave the configuration
alone when it refuses a value: there is no id given for the role afterwards. -/
def idFlag (role : Role) (name description : String) : Flag IssueConfig where
  name := ascii name
  takesValue := true
  description := ascii description
  handle value config :=
    let id? := integer? value
    let given := { config with overrides := config.overrides.set role id? }
    match id? with
    | some _ => .accepted given
    | none => .rejected given (invalidValue name value)

def identityFlags : List (Flag IssueConfig) :=
  [idFlag .worker "--worker-id" "Worker id in [0, 31]; overrides IDWORKER_WORKER_ID",
   idFlag .datacenter "--datacenter-id"
     "Datacenter id in [0, 31]; overrides IDWORKER_DATACENTER_ID"]

def issueFlags : List (Flag IssueConfig) :=
  identityFlags ++
    [valueFlag "--count" "Number of ids to generate (default 1)" integer?
       fun count c => { c with count },
     plainFlag "--short" "Print ids in base62 form" fun c => { c with short := true },
     plainFlag "--explain" "Print each id with its decoded fields"
       fun c => { c with explain := true }]

/-- An id and its origin, as they are announced. -/
def announced (role : Role) (a : Assignment) : Bytes :=
  role.name ++ ascii "_id=" ++ Decimal.ofInt a.id ++ ascii " (" ++ a.origin.name ++ ascii ")"

/-- What is said about an identity before it is used. -/
def announcement (i : Identity) : Bytes :=
  line (ascii "Worker identity: " ++ announced .worker i.worker ++ ascii ", "
      ++ announced .datacenter i.datacenter)
    ++ i.warnings.flatMap line

variable {κ : Type} [Source κ Instant]

/-- Settles the identity and announces it, and goes on with it. -/
def withIdentity (host : Host) (overrides : Overrides) (clock : Supply κ)
    (go : Identity → Supply κ → Option Outcome) : Option Outcome := do
  let (resolved, clock) ← resolve host.environment host.machine.fingerprint overrides clock
  match resolved with
  | .error e => some (.failure (errorLine e.message))
  | .ok identity => (go identity clock).map (Outcome.after (announcement identity))

/-- A batch of ids from a generator, or the error of the first call that fails. -/
def issueBatch (generator : Snowflake.Generator) (identity : Identity) (config : IssueConfig)
    (clock : Supply κ) : Option (Snowflake.Call κ IdBatch) :=
  (generator.batch config.count.toNat clock).map
    (Snowflake.Call.map fun ids => { identity, form := config.form, ids })

/-- Has ids issued at the address of an identity. -/
def issueAs (config : IssueConfig) (identity : Identity) (clock : Supply κ) : Option Outcome :=
  match identity.generator with
  | .error e => some (.failure (errorLine e.message))
  | .ok generator => do
    let call ← issueBatch generator identity config clock
    match call.result with
    | .error e => some (.failure (errorLine e.message))
    | .ok batch => some (.success (.ids batch) [])

/-- Shows an identity that has an address. -/
def showAs (fingerprint : Fingerprint) (identity : Identity) : Outcome :=
  match Address.ofIds identity.worker.id identity.datacenter.id with
  | .error e => .failure (errorLine e.message)
  | .ok _ => .success (.identity identity fingerprint) []

def issueIds (arguments : List Bytes) (host : Host) (clock : Supply κ) : Option Outcome :=
  let parsed := parseOptions issueFlags arguments {}
  if ¬ parsed.isFine ∨ parsed.positional ≠ [] then
    some (misused parsed (callText "snowflake [options]") issueFlags)
  else
    match parsed.config.error? with
    | some e => some (.failure (line e.message))
    | none => withIdentity host parsed.config.overrides clock (issueAs parsed.config)

/-- Shows the identity and the fingerprint of the machine. -/
def showIdentity (arguments : List Bytes) (host : Host) (clock : Supply κ) : Option Outcome :=
  let parsed := parseOptions identityFlags arguments {}
  if ¬ parsed.isFine ∨ parsed.positional ≠ [] then
    some (misused parsed (callText "worker-identity [options]") identityFlags)
  else
    withIdentity host parsed.config.overrides clock fun identity _ =>
      some (showAs host.machine.fingerprint identity)

end IdMint.Command
