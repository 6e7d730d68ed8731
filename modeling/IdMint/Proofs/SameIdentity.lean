import IdMint.Proofs.Batches
import IdMint.Proofs.LastValue
import IdMint.Proofs.OwnAddress
import IdMint.Proofs.Printing

/-!
# Two commands, one identity

An operator looks at the identity with one command and has ids issued with another,
and expects to have seen what is used. The two share the options about the identity
and the way it is settled. What keeps them apart is that one knows more options, that
one reads the clock, and that each checks the address at a place of its own.

None of this shows. Options that do not occur among the arguments do not change what
the others come to. The identity needs no clock, since the process id keeps every
fingerprint from being empty; so the first reading is left to the generator, and a
new generator takes any reading that is not before 1970. And a generator is refused an
address exactly when there is none.

What does show is the fingerprint, which only one of the documents has. If a name in it is
not UTF-8, that one cannot be printed and the other can.
-/

namespace IdMint

namespace Snowflake

variable {κ : Type} [Source κ Instant]

/-- A new generator takes any first reading from 1970 on. -/
theorem next_of_new (address : Address) {clock later : Supply κ} {t : Instant}
    (hfirst : clock.Gives [t] later) (ht : 0 ≤ t.unixMillis) :
    ∃ slot : Slot, Generator.next { address } clock
      = some { result := .ok (slot.id address), generator := { address, last := slot }
               clock := later } := by
  refine ⟨_, next_eq_some_iff.mpr ⟨[t], hfirst, .issued (.later ?_)⟩⟩
  show -1 < t.unixMillis
  omega

end Snowflake

namespace Command

open Snowflake

/-- An identity is refused a generator for the same reason as an address. -/
theorem generator_refused_iff {identity : Identity} {message : Bytes} :
    (∃ e, identity.generator = .error e ∧ e.message = message) ↔
      ∃ e, Address.ofIds identity.worker.id identity.datacenter.id = .error e ∧
        e.message = message := by
  rw [Identity.generator, create_eq_map]
  cases Address.ofIds identity.worker.id identity.datacenter.id with
  | error e =>
      constructor
      · rintro ⟨_, h, rfl⟩
        cases h
        exact ⟨e, rfl, rfl⟩
      · rintro ⟨_, h, rfl⟩
        cases h
        exact ⟨.outOfRange e, rfl, rfl⟩
  | ok address =>
      constructor
      · rintro ⟨_, h, _⟩
        cases h
      · rintro ⟨_, h, _⟩
        cases h

/-! ## The options about the identity -/

/-- One id is asked for, in the form of a number. -/
def IssueConfig.IsPlain (c : IssueConfig) : Prop :=
  c.count = 1 ∧ c.short = false ∧ c.explain = false

theorem IssueConfig.IsPlain.error?_eq {c : IssueConfig} (h : c.IsPlain) : c.error? = none := by
  obtain ⟨hcount, hshort, _⟩ := h
  rw [error?, hcount, hshort]
  rfl

theorem idFlag_config (role : Role) (name description : String) (value : Bytes)
    (config : IssueConfig) :
    ((idFlag role name description).handle value config).config
      = { config with overrides := config.overrides.set role (integer? value) } := by
  simp only [idFlag]
  cases integer? value with
  | none => rfl
  | some id => rfl

/-- The two options set ids and nothing else. -/
theorem isPlain_of_identityFlags (arguments : List Bytes) :
    (parseOptions identityFlags arguments {}).config.IsPlain := by
  refine parseOptions_config_induction (P := IssueConfig.IsPlain) ?_ ⟨rfl, rfl, rfl⟩
  intro flag hflag value config hconfig
  rw [identityFlags, List.mem_cons, List.mem_singleton] at hflag
  rcases hflag with rfl | rfl
  · rw [idFlag_config]
    exact hconfig
  · rw [idFlag_config]
    exact hconfig

/-- The name of the option for the id of a role. -/
def idOption : Role → Bytes
  | .worker => ascii "--worker-id"
  | .datacenter => ascii "--datacenter-id"

/-- The flag sets the id of its role, and of no other. -/
theorem idFlag_get (role other : Role) (name description : String) (value : Bytes)
    (config : IssueConfig) :
    ((idFlag role name description).handle value config).config.overrides.get other
      = if other = role then integer? value else config.overrides.get other := by
  rw [idFlag_config]
  exact config.overrides.get_set role other _

theorem identityFlags_mind_id (role : Role) :
    ∀ flag ∈ identityFlags, flag.Minds (idOption role)
      (fun config => config.overrides.get role) (fun value id? => integer? value = id?)
      fun _ => True := by
  simp only [identityFlags, List.forall_mem_cons]
  cases role with
  | worker =>
      exact ⟨.sets rfl rfl fun _ _ _ => (idFlag_get .worker .worker ..).symm,
        .keeps (by decide) fun _ _ => idFlag_get .datacenter .worker .., List.forall_mem_nil _⟩
  | datacenter =>
      exact ⟨.keeps (by decide) fun _ _ => idFlag_get .worker .datacenter ..,
        .sets rfl rfl fun _ _ _ => (idFlag_get .datacenter .datacenter ..).symm,
        List.forall_mem_nil _⟩

/-- The id that the options give for a role is what the last value says. If that was refused,
there is none, whatever was given before it; with other options it would be what is left of
the values that were accepted. -/
theorem last_id_given (role : Role) (arguments : List Bytes) :
    Gives identityFlags arguments (idOption role) (fun value id? => integer? value = id?)
      none ((parseOptions identityFlags arguments {}).config.overrides.get role) := by
  have hstart : ({} : IssueConfig).overrides.get role = none := by cases role <;> rfl
  have hgives : Gives identityFlags arguments (idOption role)
      (fun value id? => integer? value = id?) (({} : IssueConfig).overrides.get role)
      ((parseOptions identityFlags arguments {}).config.overrides.get role) :=
    gives_of_answers (identityFlags_mind_id role) fun _ _ => trivial
  rwa [hstart] at hgives

/-- The names of the options that only issuing has. -/
def issueOnly : List Bytes := [ascii "--count", ascii "--short", ascii "--explain"]

theorem parseOptions_issueFlags {arguments : List Bytes}
    (h : ∀ name ∈ issueOnly, name ∉ arguments) (config : IssueConfig) :
    parseOptions issueFlags arguments config = parseOptions identityFlags arguments config := by
  refine parseOptions_append (fun flag hflag => h flag.name ?_) config
  exact List.mem_map_of_mem (f := Flag.name) hflag

/-! ## One identity -/

/-- The names of the members that tell the identity. -/
def identityMembers : List Bytes :=
  [ascii "worker_id", ascii "worker_source", ascii "datacenter_id", ascii "datacenter_source"]

/-- The two documents tell the same identity. -/
def TellAlike (shown issued : Json) : Prop :=
  ∀ name ∈ identityMembers,
    ∃ value, shown.member? name = some value ∧ issued.member? name = some value

theorem tellAlike (batch : IdBatch) (fingerprint : Fingerprint) :
    TellAlike (Document.identity batch.identity fingerprint).toJson
      (Document.ids batch).toJson := by
  intro name hname
  simp only [identityMembers, List.mem_cons, List.not_mem_nil, or_false] at hname
  rcases hname with rfl | rfl | rfl | rfl
  · exact ⟨_, rfl, rfl⟩
  · exact ⟨_, rfl, rfl⟩
  · exact ⟨_, rfl, rfl⟩
  · exact ⟨_, rfl, rfl⟩

/-- What showing an identity and having ids issued under it come to, if it is the same: both
commands have said the same, and either both failed or both have a document. -/
inductive Agree (fingerprint : Fingerprint) : Outcome → Outcome → Prop
  | failed (remarks : Bytes) : Agree fingerprint (.failure remarks) (.failure remarks)
  | settled (batch : IdBatch) (remarks : Bytes) :
      Agree fingerprint (.success (.identity batch.identity fingerprint) remarks)
        (.success (.ids batch) remarks)

theorem Agree.after {fingerprint : Fingerprint} {shown issued : Outcome}
    (h : Agree fingerprint shown issued) (remarks : Bytes) :
    Agree fingerprint (shown.after remarks) (issued.after remarks) := by
  cases h with
  | failed said => exact .failed (remarks ++ said)
  | settled batch said => exact .settled batch (remarks ++ said)

variable {κ ρ : Type} [Source κ Instant] [Source ρ Draw]

theorem issueBatch_of_new (address : Address) (identity : Identity) {config : IssueConfig}
    (hplain : config.IsPlain) {clock later : Supply κ} {t : Instant}
    (hfirst : clock.Gives [t] later) (ht : 0 ≤ t.unixMillis) :
    ∃ ids g, issueBatch { address } identity config clock
      = some { result := .ok { identity, form := config.form, ids }, generator := g
               clock := later } := by
  obtain ⟨slot, hnext⟩ := next_of_new address hfirst ht
  refine ⟨[slot.id address], { address, last := slot }, ?_⟩
  apply issueBatch_eq_ok_iff.mpr
  refine ⟨_, rfl, ?_⟩
  rw [hplain.1]
  exact run_succ_eq_ok_iff.mpr ⟨_, [], _, _, rfl, hnext, rfl⟩

theorem showAs_agrees_issueAs (identity : Identity) (fingerprint : Fingerprint)
    {config : IssueConfig} (hplain : config.IsPlain) {clock later : Supply κ} {t : Instant}
    (hfirst : clock.Gives [t] later) (ht : 0 ≤ t.unixMillis) :
    ∃ issued, issueAs config identity clock = some issued ∧
      Agree fingerprint (showAs fingerprint identity) issued := by
  rw [issueAs, showAs, Identity.generator, create_eq_map]
  cases Address.ofIds identity.worker.id identity.datacenter.id with
  | error e => exact ⟨_, rfl, .failed _⟩
  | ok address =>
      obtain ⟨ids, g, hbatch⟩ := issueBatch_of_new address identity hplain hfirst ht
      refine ⟨.success (.ids { identity, form := config.form, ids }) [], ?_,
        .settled { identity, form := config.form, ids } []⟩
      show (issueBatch { address } identity config clock).bind _ = _
      rw [hbatch]
      rfl

/-- Of the two commands with one configuration only one reads the clock. -/
theorem withIdentity_agrees (host : Host) {config : IssueConfig} (hplain : config.IsPlain)
    {clock later : Supply κ} {t : Instant} (hfirst : clock.Gives [t] later)
    (ht : 0 ≤ t.unixMillis) (clock' : Supply κ) :
    ∃ issued shown,
      withIdentity host config.overrides clock (issueAs config) = some issued ∧
      withIdentity host config.overrides clock'
        (fun identity _ => some (showAs host.machine.fingerprint identity)) = some shown ∧
      Agree host.machine.fingerprint shown issued := by
  obtain ⟨result, hresult⟩ := resolve_of_fingerprint (κ := κ) host.environment
    host.machine.fingerprint_text_ne_nil config.overrides
  rw [withIdentity, withIdentity, hresult, hresult]
  cases result with
  | error e => exact ⟨_, _, rfl, rfl, .failed _⟩
  | ok identity =>
      obtain ⟨issued, hissued, hagree⟩ :=
        showAs_agrees_issueAs identity host.machine.fingerprint hplain hfirst ht
      refine ⟨issued.after (announcement identity), _, ?_, rfl, hagree.after _⟩
      show (issueAs config identity clock).map _ = _
      rw [hissued]
      rfl

/-- The ways in which the two runs end. -/
inductive EndAlike (fingerprint : Fingerprint) : Ending → Ending → Prop
  | failed (remarks : Bytes) : EndAlike fingerprint (.exited 1 [] remarks) (.exited 1 [] remarks)
  | printed {output output' remarks : Bytes} {shown issued : Json} (hutf8 : fingerprint.IsUtf8)
      (hshown : Json.parse? output = some shown) (hissued : Json.parse? output' = some issued)
      (halike : TellAlike shown issued) :
      EndAlike fingerprint (.exited 0 output remarks) (.exited 0 output' remarks)
  | aborted {output' remarks : Bytes} (hraw : ¬ fingerprint.IsUtf8) :
      EndAlike fingerprint (.aborted remarks) (.exited 0 output' remarks)

theorem Agree.endAlike {m : Machine} {shown issued : Outcome}
    (h : Agree m.fingerprint shown issued) :
    EndAlike m.fingerprint shown.print issued.print := by
  cases h with
  | failed remarks => exact .failed remarks
  | settled batch remarks =>
      have hdocument := isPrintable_identity_iff batch.identity m
      obtain ⟨output', hissued, _, hparse'⟩ :=
        print_success (.ids batch) (isPrintable_ids batch) remarks
      rw [hissued]
      by_cases hutf8 : m.fingerprint.IsUtf8
      · obtain ⟨output, hshown, _, hparse⟩ := print_success _ (hdocument.mpr hutf8) remarks
        rw [hshown]
        exact .printed hutf8 hparse hparse' (tellAlike batch m.fingerprint)
      · rw [print_success_of_not_printable _ (mt hdocument.mp hutf8)]
        exact .aborted hutf8

end Command

end IdMint
