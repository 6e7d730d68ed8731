import IdMint.Proofs.SameIdentity
import IdMint.Proofs.Turns

/-!
# A run prints one document, or explains why not

A command has many places to fail at, and at each of them the document has to be left out
and something has to be said. `Ends` lists the ways in which a run ends that has not
failed: there is one for each kind of document, and what is known of the document is known
of the printed text, since that is read as the document. What scripts rely on is read from
this list and no more from the commands.

One end is left over. A tag or a name of the machine that is not UTF-8 cannot be printed,
and then the run is aborted without an explanation. No other text can do that.

How many things a document has to list is said by the arguments, and it is said without
the parser: the arguments are cut into pieces, and the last piece that gives a count tells
it. The tag is found in the same way.
-/

namespace IdMint.Command

/-! ## Failures -/

/-- The run failed, and said something. -/
def Outcome.Fails (o : Outcome) : Prop := ∃ remarks, remarks ≠ [] ∧ o = .failure remarks

theorem line_ne_nil (text : Bytes) : line text ≠ [] :=
  List.append_ne_nil_of_right_ne_nil _ (by decide)

theorem helpText_ne_nil : helpText ≠ [] := by
  rw [helpText, List.flatMap_cons]
  exact List.append_ne_nil_of_left_ne_nil (line_ne_nil _) _

theorem fails_of_line (text : Bytes) : (Outcome.failure (line text)).Fails :=
  ⟨_, line_ne_nil text, rfl⟩

theorem fails_of_misused {γ : Type} (parsed : Parsed γ) (call : Bytes) (flags : List (Flag γ)) :
    (misused parsed call flags).Fails := by
  have hword : ascii "Usage: " ≠ [] := by decide
  refine ⟨_, List.append_ne_nil_of_right_ne_nil _ ?_, rfl⟩
  simp only [usage, List.append_assoc]
  exact List.append_ne_nil_of_left_ne_nil hword _

theorem Outcome.Fails.after {o : Outcome} (h : o.Fails) (said : Bytes) : (o.after said).Fails := by
  obtain ⟨remarks, hremarks, rfl⟩ := h
  exact ⟨_, List.append_ne_nil_of_right_ne_nil _ hremarks, rfl⟩

/-! ## How many, and under which tag -/

section

variable {γ : Type}

/-- The arguments ask for this many things: for as many as the last value says that they give
for the option, or for one. -/
def AsksFor (flags : List (Flag γ)) (arguments : List Bytes) (count : Int) : Prop :=
  Gives flags arguments (ascii "--count") Decimal.Denotes 1 count

/-- A numeral denotes one integer. -/
theorem AsksFor.unique {flags : List (Flag γ)} {arguments : List Bytes} {m n : Int}
    (hm : AsksFor flags arguments m) (hn : AsksFor flags arguments n) : m = n := by
  have hdenotes : ∀ value m n, Decimal.Denotes value m → Decimal.Denotes value n → m = n :=
    fun _ _ _ => Decimal.Denotes.unique
  exact Gives.unique hdenotes hm hn

/-- The tag that the arguments give: the last value as it stands, or the empty text. -/
def GivesTag (arguments : List Bytes) (tag : Bytes) : Prop :=
  Gives flowFlags arguments (ascii "--prefix") Eq [] tag

theorem denotes_of_integer? {value : Bytes} {n : Int} (h : integer? value = some n) :
    Decimal.Denotes value n := by
  obtain ⟨v, hparse, rfl⟩ := Option.map_eq_some_iff.mp h
  exact Decimal.parseInt64?_eq_some_iff.mp hparse

theorem range_of_countError? {count : Int} (h : countError? count = none) :
    1 ≤ count ∧ count ≤ maxCount := by
  rw [countError?] at h
  by_contra hrange
  rw [if_neg hrange] at h
  cases h

/-- The arguments ask for this many and for no other number, and it is in range. -/
def IsAsked (flags : List (Flag γ)) (arguments : List Bytes) (n : Nat) : Prop :=
  (∀ count : Int, AsksFor flags arguments count ↔ count = n) ∧ 1 ≤ n ∧ n ≤ 100000

theorem isAsked_of_isFine {flags : List (Flag γ)} {count : γ → Int}
    (hflags : ∀ flag ∈ flags,
      flag.Minds (ascii "--count") count Decimal.Denotes (Handled.isAccepted · = true))
    {arguments : List Bytes} {config : γ} (hstart : count config = 1)
    (hfine : (parseOptions flags arguments config).isFine = true)
    (herror : countError? (count (parseOptions flags arguments config).config) = none) :
    IsAsked flags arguments (count (parseOptions flags arguments config).config).toNat := by
  have hasks : AsksFor flags arguments (count (parseOptions flags arguments config).config) := by
    rw [AsksFor, ← hstart]
    exact gives_of_isFine hflags hfine
  obtain ⟨hpos, hle⟩ := range_of_countError? herror
  have hmax : maxCount = 100000 := rfl
  rw [IsAsked, Int.toNat_of_nonneg (by omega)]
  refine ⟨fun other => ⟨fun h => h.unique hasks, ?_⟩, by omega, by omega⟩
  rintro rfl
  exact hasks

theorem flowFlags_mind_count :
    ∀ flag ∈ flowFlags, flag.Minds (ascii "--count") FlowConfig.count Decimal.Denotes
      (Handled.isAccepted · = true) := by
  simp only [flowFlags, List.forall_mem_cons]
  exact ⟨minds_of_valueFlag_keeps (by decide) fun _ _ => rfl,
    minds_of_valueFlag_sets fun _ _ _ => denotes_of_integer?, List.forall_mem_nil _⟩

theorem flowFlags_mind_tag :
    ∀ flag ∈ flowFlags, flag.Minds (ascii "--prefix") FlowConfig.tag Eq
      (Handled.isAccepted · = true) := by
  simp only [flowFlags, List.forall_mem_cons]
  exact ⟨minds_of_valueFlag_sets fun _ _ _ => Option.some.inj,
    minds_of_valueFlag_keeps (by decide) fun _ _ => rfl, List.forall_mem_nil _⟩

theorem idFlag_keeps_count (role : Role) (name description : String) (value : Bytes)
    (config : IssueConfig) :
    ((idFlag role name description).handle value config).config.count = config.count := by
  rw [idFlag_config]

theorem issueFlags_mind_count :
    ∀ flag ∈ issueFlags, flag.Minds (ascii "--count") IssueConfig.count Decimal.Denotes
      (Handled.isAccepted · = true) := by
  simp only [issueFlags, identityFlags, List.cons_append, List.nil_append, List.forall_mem_cons]
  exact ⟨.keeps (by decide) (idFlag_keeps_count _ _ _),
    .keeps (by decide) (idFlag_keeps_count _ _ _),
    minds_of_valueFlag_sets fun _ _ _ => denotes_of_integer?,
    .keeps (by decide) fun _ _ => rfl, .keeps (by decide) fun _ _ => rfl, List.forall_mem_nil _⟩

end

/-! ## The ends of the commands -/

variable {κ ρ : Type} [Source κ Instant] [Source ρ Draw] {arguments : List Bytes} {host : Host}
  {clock : Supply κ} {random : Supply ρ} {o : Outcome}

theorem flowBatch_numbers {config : FlowConfig} {q : Flow.Sequence}
    {issued : Flow.Issued κ ρ FlowBatch} (h : flowBatch config q clock random = some issued) :
    issued.value.tag = config.tag ∧
      issued.value.numbers.map Flow.Number.tag = List.replicate config.count.toNat config.tag := by
  obtain ⟨many, hmany, h⟩ := Option.bind_eq_some_iff.mp h
  cases h
  obtain ⟨_, _, _, htags⟩ := Flow.serves_of_issueAll hmany
  exact ⟨rfl, htags⟩

/-- A batch of numbers as the arguments ask for it. -/
structure IsAskedBatch (arguments : List Bytes) (batch : FlowBatch) : Prop where
  count : IsAsked flowFlags arguments batch.numbers.length
  tag : GivesTag arguments batch.tag
  tags : ∀ n ∈ batch.numbers, n.tag = batch.tag

theorem issueFlowNumbers_cases (h : issueFlowNumbers arguments clock random = some o) :
    o.Fails ∨ ∃ batch : FlowBatch, o = .success (.flowNumbers batch) [] ∧
      IsAskedBatch arguments batch := by
  simp only [issueFlowNumbers] at h
  split at h
  · cases h
    exact .inl (fails_of_misused _ _ _)
  · next hyes =>
      have hfine := not_not.mp (not_or.mp hyes).1
      split at h
      · cases h
        exact .inl (fails_of_line _)
      · next herror =>
          obtain ⟨issued, hissued, h⟩ := Option.bind_eq_some_iff.mp h
          cases h
          obtain ⟨htag, hnumbers⟩ := flowBatch_numbers hissued
          have hlength := congrArg List.length hnumbers
          rw [List.length_map, List.length_replicate] at hlength
          refine .inr ⟨issued.value, rfl, ?_, ?_, fun n hn => ?_⟩
          · rw [hlength]
            exact isAsked_of_isFine flowFlags_mind_count rfl hfine herror
          · rw [htag]
            exact gives_of_isFine flowFlags_mind_tag hfine
          · have hmem := List.mem_map_of_mem (f := Flow.Number.tag) hn
            rw [hnumbers] at hmem
            rw [htag]
            exact List.eq_of_mem_replicate hmem

theorem maskValues_cases (direction : Obfuscation.Direction) (arguments : List Bytes) :
    (maskValues direction arguments).Fails ∨
      ∃ report, maskValues direction arguments = .success (.obfuscation report) [] := by
  simp only [maskValues]
  split
  · exact .inl (fails_of_misused _ _ _)
  · split
    · exact .inl (fails_of_line _)
    · next report _ => exact .inr ⟨report, rfl⟩

theorem showAs_cases (fingerprint : Fingerprint) (identity : Identity) :
    (showAs fingerprint identity).Fails ∨
      showAs fingerprint identity = .success (.identity identity fingerprint) [] := by
  rw [showAs]
  split
  · exact .inl (fails_of_line _)
  · exact .inr rfl

theorem issueAs_cases {config : IssueConfig} {identity : Identity}
    (h : issueAs config identity clock = some o) :
    o.Fails ∨ ∃ ids : List Id, ids.length = config.count.toNat ∧
      o = .success (.ids { identity, form := config.form, ids }) [] := by
  rw [issueAs] at h
  split at h
  · cases h
    exact .inl (fails_of_line _)
  · obtain ⟨⟨result, g, later⟩, hcall, h⟩ := Option.bind_eq_some_iff.mp h
    cases result with
    | error e =>
        cases h
        exact .inl (fails_of_line _)
    | ok batch =>
        cases h
        obtain ⟨ids, rfl, hrun⟩ := issueBatch_eq_ok_iff.mp hcall
        have hlength := Snowflake.length_of_run hrun
        rw [List.length_map] at hlength
        exact .inr ⟨ids, hlength, rfl⟩

/-- What is said about an identity is said before anything else. -/
theorem withIdentity_cases {overrides : Overrides} {go : Identity → Supply κ → Option Outcome}
    (h : withIdentity host overrides clock go = some o) :
    o.Fails ∨ ∃ identity later rest, go identity later = some rest ∧
      o = rest.after (announcement identity) := by
  obtain ⟨⟨resolved, later⟩, _, h⟩ := Option.bind_eq_some_iff.mp h
  cases resolved with
  | error e =>
      cases h
      exact .inl (fails_of_line _)
  | ok identity =>
      obtain ⟨rest, hrest, rfl⟩ := Option.map_eq_some_iff.mp h
      exact .inr ⟨identity, later, rest, hrest, rfl⟩

theorem success_after (document : Document) (said : Bytes) :
    (Outcome.success document []).after said = .success document said :=
  congrArg (Outcome.success document) (List.append_nil said)

theorem issueIds_cases (h : issueIds arguments host clock = some o) :
    o.Fails ∨ ∃ batch : IdBatch, o = .success (.ids batch) (announcement batch.identity) ∧
      IsAsked issueFlags arguments batch.ids.length := by
  simp only [issueIds] at h
  split at h
  · cases h
    exact .inl (fails_of_misused _ _ _)
  · next hyes =>
      obtain ⟨hfine, _⟩ := not_or.mp hyes
      split at h
      · cases h
        exact .inl (fails_of_line _)
      · next herror =>
          rcases withIdentity_cases h with hfails | ⟨identity, later, rest, hrest, rfl⟩
          · exact .inl hfails
          · rcases issueAs_cases hrest with hfails | ⟨ids, hlength, rfl⟩
            · exact .inl (hfails.after _)
            · refine .inr ⟨_, success_after _ _, ?_⟩
              rw [hlength]
              exact isAsked_of_isFine issueFlags_mind_count rfl (not_not.mp hfine)
                (Option.or_eq_none_iff.mp herror).1

theorem showIdentity_cases (h : showIdentity arguments host clock = some o) :
    o.Fails ∨ ∃ identity,
      o = .success (.identity identity host.machine.fingerprint) (announcement identity) := by
  simp only [showIdentity] at h
  split at h
  · cases h
    exact .inl (fails_of_misused _ _ _)
  · rcases withIdentity_cases h with hfails | ⟨identity, _, rest, hrest, rfl⟩
    · exact .inl hfails
    · cases hrest
      rcases showAs_cases host.machine.fingerprint identity with hfails | hshown
      · exact .inl (hfails.after _)
      · rw [hshown, success_after]
        exact .inr ⟨_, rfl⟩

/-! ## The ends of a request -/

/-- The document of the request would show a text from outside that is not UTF-8. -/
def Request.ShowsRaw (arguments : List Bytes) (host : Host) : Request → Prop
  | .flowNumbers => ∃ tag, GivesTag arguments tag ∧ ¬ Utf8.IsText tag
  | .identity => ¬ host.machine.fingerprint.IsUtf8
  | _ => False

/-- The text is UTF-8, and it is the document and nothing else. -/
def Prints (document : Document) (output : Bytes) : Prop :=
  Utf8.IsText output ∧ Json.parse? output = some document.toJson

/-- The ways in which a request ends that has not failed, by its arguments and the machine. -/
inductive Ends (arguments : List Bytes) (host : Host) : Request → Ending → Prop
  | helped : Ends arguments host .help (.exited 0 [] helpText)
  | issued {batch : IdBatch} {output : Bytes}
      (hcount : IsAsked issueFlags arguments batch.ids.length)
      (hprints : Prints (.ids batch) output) :
      Ends arguments host .ids (.exited 0 output (announcement batch.identity))
  | numbered {batch : FlowBatch} {output : Bytes}
      (hcount : IsAsked flowFlags arguments batch.numbers.length)
      (hutf8 : ¬ Request.ShowsRaw arguments host .flowNumbers)
      (hprints : Prints (.flowNumbers batch) output) :
      Ends arguments host .flowNumbers (.exited 0 output [])
  | masked {direction : Obfuscation.Direction} {report : Obfuscation.Report} {output : Bytes}
      (hprints : Prints (.obfuscation report) output) :
      Ends arguments host (.masking direction) (.exited 0 output [])
  | shown {identity : Identity} {output : Bytes}
      (hutf8 : ¬ Request.ShowsRaw arguments host .identity)
      (hprints : Prints (.identity identity host.machine.fingerprint) output) :
      Ends arguments host .identity (.exited 0 output (announcement identity))
  | aborted {request : Request} {remarks : Bytes} (hraw : request.ShowsRaw arguments host) :
      Ends arguments host request (.aborted remarks)

variable {request : Request} {e : Ending}

theorem IsAskedBatch.ends {batch : FlowBatch} (h : IsAskedBatch arguments batch) :
    Ends arguments host .flowNumbers (Outcome.success (.flowNumbers batch) []).print := by
  have hdocument := isPrintable_flowNumbers_iff h.tags
  by_cases hutf8 : Utf8.IsText batch.tag
  · obtain ⟨output, hprint, hprints⟩ :=
      print_success (.flowNumbers batch) (hdocument.mpr hutf8) []
    rw [hprint]
    refine .numbered h.count ?_ hprints
    rintro ⟨tag, hgives, hraw⟩
    have hsame : tag = batch.tag := Gives.unique (fun _ _ _ ha hb => ha.symm.trans hb) hgives h.tag
    exact hraw (hsame ▸ hutf8)
  · rw [print_success_of_not_printable (.flowNumbers batch) (mt hdocument.mp hutf8)]
    exact .aborted ⟨_, h.tag, hutf8⟩

theorem ends_identity (identity : Identity) :
    Ends arguments host .identity (Outcome.success (.identity identity host.machine.fingerprint)
      (announcement identity)).print := by
  have hdocument := isPrintable_identity_iff identity host.machine
  by_cases hutf8 : host.machine.fingerprint.IsUtf8
  · obtain ⟨output, hprint, hprints⟩ :=
      print_success _ (hdocument.mpr hutf8) (announcement identity)
    rw [hprint]
    exact .shown (not_not.mpr hutf8) hprints
  · rw [print_success_of_not_printable _ (mt hdocument.mp hutf8)]
    exact .aborted hutf8

/-- There is no other way. -/
theorem Request.ends_of_run (h : request.run arguments host clock random = some o) :
    o.Fails ∨ Ends arguments host request o.print := by
  cases request with
  | ids =>
      rcases issueIds_cases h with hfails | ⟨batch, rfl, hasked⟩
      · exact .inl hfails
      · obtain ⟨output, hprint, hprints⟩ :=
          print_success (.ids batch) (isPrintable_ids batch) (announcement batch.identity)
        rw [hprint]
        exact .inr (.issued hasked hprints)
  | flowNumbers =>
      rcases issueFlowNumbers_cases h with hfails | ⟨batch, rfl, hasked⟩
      · exact .inl hfails
      · exact .inr hasked.ends
  | masking direction =>
      cases h
      rcases maskValues_cases direction arguments with hfails | ⟨report, hreport⟩
      · exact .inl hfails
      · obtain ⟨output, hprint, hprints⟩ :=
          print_success (.obfuscation report) (isPrintable_report report) []
        rw [hreport, hprint]
        exact .inr (.masked hprints)
  | identity =>
      rcases showIdentity_cases h with hfails | ⟨identity, rfl⟩
      · exact .inl hfails
      · exact .inr (ends_identity identity)
  | help =>
      cases h
      exact .inr .helped

theorem Ends.exitCode?_eq (h : Ends arguments host request e) :
    e.exitCode? = some 0 ∧ ¬ request.ShowsRaw arguments host ∨
      e.exitCode? = none ∧ e.output = [] ∧ request.ShowsRaw arguments host := by
  cases h with
  | helped => exact .inl ⟨rfl, id⟩
  | issued => exact .inl ⟨rfl, id⟩
  | numbered _ hutf8 => exact .inl ⟨rfl, hutf8⟩
  | masked => exact .inl ⟨rfl, id⟩
  | shown hutf8 => exact .inl ⟨rfl, hutf8⟩
  | aborted hraw => exact .inr ⟨rfl, rfl, hraw⟩

theorem not_zero_of_aborted {P : Prop} {remarks : Bytes}
    (h : (Ending.aborted remarks).exitCode? = some 0) : P :=
  absurd h.symm (Option.some_ne_none 0)

theorem Ends.output_of_help (h : Ends arguments host .help e) : e.output = [] := by
  cases h with
  | helped => rfl
  | aborted hraw => exact hraw.elim

theorem Ends.output_is_document (h : Ends arguments host request e) (hcode : e.exitCode? = some 0)
    (hrequest : request ≠ .help) :
    Utf8.IsText e.output ∧ ∃ document, Json.parse? e.output = some document := by
  cases h with
  | helped => exact absurd rfl hrequest
  | issued _ hprints => exact ⟨hprints.1, _, hprints.2⟩
  | numbered _ _ hprints => exact ⟨hprints.1, _, hprints.2⟩
  | masked hprints => exact ⟨hprints.1, _, hprints.2⟩
  | shown _ hprints => exact ⟨hprints.1, _, hprints.2⟩
  | aborted => exact not_zero_of_aborted hcode

/-! ## What is said about an identity -/

/-- The document tells both ids of the identity and their origins. -/
def Tells (document : Json) (identity : Identity) : Prop :=
  ∀ role : Role,
    document.member? (role.name ++ ascii "_id") = some (.int (identity.get role).id) ∧
      document.member? (role.name ++ ascii "_source")
        = some (.text (identity.get role).origin.name)

theorem announcement_eq (i : Identity) :
    announcement i
      = line (ascii "Worker identity: " ++ announced .worker i.worker ++ ascii ", "
          ++ announced .datacenter i.datacenter)
        ++ i.derivedRoles.flatMap fun role => line (role.warning (i.get role).id) := by
  rw [announcement, Identity.warnings_eq, List.flatMap_map]

theorem mem_derivedRoles_iff {i : Identity} {role : Role} :
    role ∈ i.derivedRoles ↔ (i.get role).origin.name = ascii "machine" := by
  have hname : ∀ origin : Origin, origin.name = ascii "machine" ↔ origin = .machine := by
    rintro (_ | _ | _) <;> decide
  have hall : role ∈ [Role.worker, Role.datacenter] := by cases role <;> decide
  rw [hname, Identity.derivedRoles, List.mem_filter, decide_eq_true_eq]
  exact and_iff_right hall

theorem Ends.announces (h : Ends arguments host request e) (hcode : e.exitCode? = some 0)
    (hrequest : request = .ids ∨ request = .identity) :
    ∃ document identity, Json.parse? e.output = some document ∧ Tells document identity ∧
      e.remarks = announcement identity := by
  rcases hrequest with rfl | rfl
  · cases h with
    | issued _ hprints => exact ⟨_, _, hprints.2, forall_role.mpr ⟨⟨rfl, rfl⟩, ⟨rfl, rfl⟩⟩, rfl⟩
    | aborted => exact not_zero_of_aborted hcode
  · cases h with
    | shown _ hprints => exact ⟨_, _, hprints.2, forall_role.mpr ⟨⟨rfl, rfl⟩, ⟨rfl, rfl⟩⟩, rfl⟩
    | aborted => exact not_zero_of_aborted hcode

theorem Ends.remarks_eq_nil (h : Ends arguments host request e) (hcode : e.exitCode? = some 0)
    (hrequest : request ≠ .ids ∧ request ≠ .identity ∧ request ≠ .help) : e.remarks = [] := by
  obtain ⟨hids, hidentity, hhelp⟩ := hrequest
  cases h with
  | helped => exact absurd rfl hhelp
  | issued => exact absurd rfl hids
  | numbered => rfl
  | masked => rfl
  | shown => exact absurd rfl hidentity
  | aborted => exact not_zero_of_aborted hcode

theorem Ends.lists_ids (h : Ends arguments host .ids e) (hcode : e.exitCode? = some 0) :
    ∃ document ids, Json.parse? e.output = some document ∧
      document.member? (ascii "ids") = some (.list ids) ∧
      IsAsked issueFlags arguments ids.length := by
  cases h with
  | @issued batch _ hcount hprints =>
      refine ⟨_, batch.ids.map batch.form.show, hprints.2, rfl, ?_⟩
      rwa [List.length_map]
  | aborted => exact not_zero_of_aborted hcode

theorem Ends.lists_numbers (h : Ends arguments host .flowNumbers e)
    (hcode : e.exitCode? = some 0) :
    ∃ document numbers, Json.parse? e.output = some document ∧
      document.member? (ascii "flow_numbers") = some (.list numbers) ∧
      IsAsked flowFlags arguments numbers.length := by
  cases h with
  | @numbered batch _ hcount _ hprints =>
      refine ⟨_, batch.numbers.map fun n => .text n.render, hprints.2, rfl, ?_⟩
      rwa [List.length_map]
  | aborted => exact not_zero_of_aborted hcode

/-! ## Runs of the program -/

/-- The first argument is one of these names. -/
def Calls (names arguments : List Bytes) : Prop := ∃ name ∈ names, arguments.head? = some name

theorem calls_cons_iff {names : List Bytes} {name : Bytes} :
    Calls names (name :: arguments) ↔ name ∈ names := by
  constructor
  · rintro ⟨_, hmem, hhead⟩
    rwa [Option.some.inj hhead]
  · intro hmem
    exact ⟨name, hmem, rfl⟩

/-- What is asked for under the names is told by the table. -/
theorem request_of_calls {names : List Bytes} {P : Request → Prop}
    (htable : ∀ entry ∈ requests, entry.1 ∈ names → P entry.2) {name : Bytes}
    (hname : (name, request) ∈ requests) (hcalls : Calls names (name :: arguments)) : P request :=
  htable _ hname (calls_cons_iff.mp hcalls)

/-- A run fails, or it is a request that its first argument names, and ends like that. -/
theorem execute_cases (h : execute arguments host clock random = some e) :
    (∃ remarks, remarks ≠ [] ∧ e = .exited 1 [] remarks) ∨
      ∃ name rest request, arguments = name :: rest ∧ (name, request) ∈ requests ∧
        Ends rest host request e := by
  obtain ⟨o, hrun, rfl⟩ := Option.map_eq_some_iff.mp h
  have hfailed : o.Fails → ∃ remarks, remarks ≠ [] ∧ o.print = .exited 1 [] remarks := by
    rintro ⟨remarks, hremarks, rfl⟩
    exact ⟨remarks, hremarks, rfl⟩
  cases arguments with
  | nil =>
      cases hrun
      exact .inl (hfailed ⟨_, helpText_ne_nil, rfl⟩)
  | cons name rest =>
      rw [run] at hrun
      split at hrun
      · next request hlookup =>
          rcases Request.ends_of_run hrun with hfails | hends
          · exact .inl (hfailed hfails)
          · obtain ⟨_, _, hsplit, _⟩ := List.lookup_eq_some_iff.mp hlookup
            refine .inr ⟨name, rest, request, rfl, ?_, hends⟩
            rw [hsplit]
            exact List.mem_append_right _ (List.mem_cons_self ..)
      · cases hrun
        exact .inl (hfailed ⟨_, List.append_ne_nil_of_right_ne_nil _ helpText_ne_nil, rfl⟩)

/-- A text from outside that is not UTF-8 is about to be shown: the tag that the arguments give,
or a name that the machine goes by. -/
def ShowsRaw (arguments : List Bytes) (host : Host) : Prop :=
  (Calls [ascii "flow-no"] arguments ∧
    ∃ tag, GivesTag arguments.tail tag ∧ ¬ Utf8.IsText tag) ∨
  (Calls [ascii "worker-identity"] arguments ∧ ¬ host.machine.fingerprint.IsUtf8)

theorem showsRaw_cons_iff {name : Bytes} {rest : List Bytes} (hname : (name, request) ∈ requests) :
    ShowsRaw (name :: rest) host ↔ request.ShowsRaw rest host := by
  have htable : ∀ entry ∈ requests,
      (entry.1 ∈ [ascii "flow-no"] ↔ entry.2 = .flowNumbers) ∧
        (entry.1 ∈ [ascii "worker-identity"] ↔ entry.2 = .identity) := by decide
  obtain ⟨hnumbers, hidentity⟩ := htable _ hname
  rw [ShowsRaw, calls_cons_iff, calls_cons_iff, hnumbers, hidentity]
  cases request with
  | flowNumbers => simp [Request.ShowsRaw]
  | identity => simp [Request.ShowsRaw]
  | ids | masking | help => simp [Request.ShowsRaw]

/-- The names under which help is asked for. -/
def helpNames : List Bytes := [ascii "help", ascii "--help", ascii "-h"]

end IdMint.Command
