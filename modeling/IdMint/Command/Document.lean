import IdMint.Flow.Number
import IdMint.Identity.Resolution
import IdMint.Obfuscation.Report
import IdMint.Text.Json

/-!
# What a command prints

A run that succeeds prints one document, and there is one kind for each thing
the program can be asked for. Members stand in the order of their names.

Ids are kept as ids here. Their form (the number, its short text, the number
with its fields) is a matter of how the document is written, so the three
forms of a batch show the same ids.
-/

namespace IdMint.Command

inductive IdForm where
  | number
  | short
  | explained
  deriving DecidableEq, Repr

def member (name : String) (value : Json) : Bytes × Json := (ascii name, value)

def IdForm.show (form : IdForm) (id : Id) : Json :=
  match form with
  | .number => .int id.toInt
  | .short => .text (Base62.encode id)
  | .explained =>
    let fields := Snowflake.Fields.decompose id
    .members
      [member "datacenter_id" (.int fields.datacenter),
       member "id" (.int id.toInt),
       member "sequence" (.int fields.sequence),
       member "timestamp_ms" (.int fields.timestampMillis),
       member "worker_id" (.int fields.worker)]

structure IdBatch where
  identity : Identity
  form : IdForm
  ids : List Id
  deriving DecidableEq, Repr

structure FlowBatch where
  tag : Bytes
  numbers : List Flow.Number
  deriving DecidableEq, Repr

/-- What a run prints when it succeeds. -/
inductive Document where
  | ids (batch : IdBatch)
  | flowNumbers (batch : FlowBatch)
  | obfuscation (report : Obfuscation.Report)
  | identity (identity : Identity) (fingerprint : Fingerprint)
  deriving DecidableEq, Repr

def datacenterMembers (i : Identity) : List (Bytes × Json) :=
  [member "datacenter_id" (.int i.datacenter.id),
   member "datacenter_source" (.text i.datacenter.origin.name)]

def workerMembers (i : Identity) : List (Bytes × Json) :=
  [member "worker_id" (.int i.worker.id), member "worker_source" (.text i.worker.origin.name)]

def identityJson (i : Identity) : Json := .members (datacenterMembers i ++ workerMembers i)

def fingerprintJson (f : Fingerprint) : Json :=
  .members
    [member "hostname" (.text f.hostname),
     member "local_ip" (.text f.localIp),
     member "mac_address" (.text f.macAddress),
     member "platform" (.text f.platform),
     member "process_id" (.text f.processId)]

def IdBatch.toJson (b : IdBatch) : Json :=
  .members
    (datacenterMembers b.identity ++ member "ids" (.list (b.ids.map b.form.show))
      :: workerMembers b.identity)

/-- A batch of flow numbers as a document; the tag is shown as the numbers bear it. -/
def FlowBatch.toJson (b : FlowBatch) : Json :=
  .members
    [member "flow_numbers" (.list (b.numbers.map fun n => .text n.render)),
     member "prefix" (.text (Ascii.upper b.tag))]

def entryJson (e : Obfuscation.Entry) : Json :=
  .members [member "input" (.int e.input.toInt), member "output" (.int e.output.toInt)]

def reportJson (r : Obfuscation.Report) : Json :=
  .members
    [member "key" (.text (Key.format r.key)),
     member "results" (.list (r.entries.map entryJson))]

def Document.toJson : Document → Json
  | .ids batch => batch.toJson
  | .flowNumbers batch => batch.toJson
  | .obfuscation report => reportJson report
  | .identity i f =>
    .members
      (datacenterMembers i ++ member "fingerprint" (fingerprintJson f) :: workerMembers i)

end IdMint.Command
