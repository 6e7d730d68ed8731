import IdMint.Digest.Sha256
import IdMint.Identity.Machine
import IdMint.Identity.Variable
import IdMint.Snowflake.Generator

/-!
# Finding out one's address

Worker and datacenter are settled independently and in the same way, and the first
that applies wins: what the caller says, what the variable says, what the
machine's fingerprint gives. A variable that is set to something wrong is
not passed over; it ends the search with an error.

What the fingerprint gives is five bits of a digest, and nobody coordinates
them, so two machines may come out alike; whoever relies on such an id is
warned. Worker and datacenter are derived from texts with different endings so that
they do not go together. An empty fingerprint would give all machines the same
ids, and is replaced by the time.
-/

namespace IdMint

inductive Origin where
  | explicit
  | environment
  | machine
  deriving DecidableEq, Repr

namespace Origin

def name : Origin → Bytes
  | .explicit => ascii "explicit"
  | .environment => ascii "environment"
  | .machine => ascii "machine"

/-- The word for an origin that may not be known. -/
def nameOrUnknown (o? : Option Origin) : Bytes := (o?.map name).getD (ascii "unknown")

end Origin

structure Assignment where
  id : Int
  origin : Origin
  deriving DecidableEq, Repr

/-- The ids that were found, each with its origin. They may still be out of range if
the caller gave them. -/
structure Identity where
  worker : Assignment
  datacenter : Assignment
  deriving DecidableEq, Repr

/-- The part of an identity that a role names. -/
def Identity.get (i : Identity) : Role → Assignment
  | .worker => i.worker
  | .datacenter => i.datacenter

structure Overrides where
  worker : Option Int := none
  datacenter : Option Int := none
  deriving DecidableEq, Repr

/-- The same with another id for one role, or with none. -/
def Overrides.set (o : Overrides) : Role → Option Int → Overrides
  | .worker, id? => { o with worker := id? }
  | .datacenter, id? => { o with datacenter := id? }

inductive ConfigError where
  | outOfRange (error : OutOfRange)
  | badVariable (role : Role) (error : VariableError)
  deriving DecidableEq, Repr

def ConfigError.message : ConfigError → Bytes
  | .outOfRange e => e.message
  | .badVariable role e => e.message role.variableName

/-- What is put behind the fingerprint to derive the id of a role. -/
def Role.suffix : Role → Bytes
  | .worker => ascii "_worker"
  | .datacenter => ascii "_datacenter"

/-- The low five bits of the first byte of a digest. -/
def bucket (digest : Bytes) : Fin 32 := Fin.ofNat 32 (digest.headD 0).toNat

variable {κ : Type} [Source κ Instant]

/-- The id that a fingerprint gives for a suffix, the time in nanoseconds standing in
for an empty fingerprint. -/
def deriveId (fingerprint suffix : Bytes) (clock : Supply κ) : Option (Fin 32 × Supply κ) :=
  if fingerprint.isEmpty then do
    let (now, clock) ← clock.next?
    some (bucket (Sha256.digest (Decimal.ofInt now.nanos ++ suffix)), clock)
  else some (bucket (Sha256.digest (fingerprint ++ suffix)), clock)

/-- An id settled for one role. What the machine gives is worked out in any case,
since it may take a reading. -/
def Role.resolve (role : Role) (env : Environment) (fingerprint : Fingerprint)
    (override : Option Int) (clock : Supply κ) :
    Option (Except ConfigError Assignment × Supply κ) := do
  let (derived, clock) ← deriveId fingerprint.text role.suffix clock
  match override, role.readVariable env with
  | some id, _ => some (.ok { id, origin := .explicit }, clock)
  | none, .ok id => some (.ok { id, origin := .environment }, clock)
  | none, .error .notSet => some (.ok { id := derived.val, origin := .machine }, clock)
  | none, .error e => some (.error (.badVariable role e), clock)

/-- Both ids, the worker first; its error keeps the datacenter from being looked at. -/
def resolve (env : Environment) (fingerprint : Fingerprint) (overrides : Overrides)
    (clock : Supply κ) : Option (Except ConfigError Identity × Supply κ) := do
  let (worker, clock) ← Role.worker.resolve env fingerprint overrides.worker clock
  match worker with
  | .error e => some (.error e, clock)
  | .ok worker =>
    let (datacenter, clock) ←
      Role.datacenter.resolve env fingerprint overrides.datacenter clock
    some (datacenter.map fun datacenter => { worker, datacenter }, clock)

/-- Both ids as the fingerprint gives them, whatever the variables say. -/
def machineIdentity (fingerprint : Fingerprint) (clock : Supply κ) :
    Option (Identity × Supply κ) := do
  let (worker, clock) ← deriveId fingerprint.text Role.worker.suffix clock
  let (datacenter, clock) ← deriveId fingerprint.text Role.datacenter.suffix clock
  some
    ({ worker := { id := worker.val, origin := .machine }
       datacenter := { id := datacenter.val, origin := .machine } }, clock)

/-- A generator at the address that was found. -/
def Identity.generator (i : Identity) : Except ConfigError Snowflake.Generator :=
  (Snowflake.Generator.create i.worker.id i.datacenter.id).mapError .outOfRange

/-- A generator at the address that the variables, or else the machine, give. -/
def generatorFromEnvironment (env : Environment) (machine : Machine) (clock : Supply κ) :
    Option (Except ConfigError Snowflake.Generator × Supply κ) := do
  let (identity, clock) ← resolve env machine.fingerprint {} clock
  some (identity >>= Identity.generator, clock)

/-- A generator at the address that the machine gives. -/
def generatorFromMachine (machine : Machine) (clock : Supply κ) :
    Option (Except ConfigError Snowflake.Generator × Supply κ) := do
  let (identity, clock) ← machineIdentity machine.fingerprint clock
  some (identity.generator, clock)

/-- The warning about an id that was derived, if it was. -/
def Assignment.warning? (role : Role) (a : Assignment) : Option Bytes :=
  if a.origin = .machine then
    some (ascii "WARNING: " ++ role.name ++ ascii " id " ++ Decimal.ofInt a.id
      ++ ascii " was derived from the machine fingerprint.\n"
      ++ ascii "         Derived ids are not coordinated; set " ++ role.variableName
      ++ ascii " to guarantee uniqueness.")
  else none

/-- The warnings about an identity, the worker's first. -/
def Identity.warnings (i : Identity) : List Bytes :=
  [Role.worker, Role.datacenter].filterMap fun role => (i.get role).warning? role

end IdMint
