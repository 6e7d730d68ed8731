import IdMint.Command.Issue
import IdMint.Proofs.Refusals

/-!
# A batch is its calls, one after the other

A batch stops at the first call that fails, and the ids drawn before it are lost. So
it is not enough to say which ids a batch has; it also has to be said what it leaves
behind, and that is what the call left that failed.

`Call.andThen` makes one call after another unless that was refused. A batch is a
single call and then a batch, and calls that follow one another may be grouped at
will, so a batch may be cut in two anywhere. In particular it may be cut before the
call that fails, which is how the run of single calls comes in. How ids are shown is
decided when they are there, so the three forms show the same ones.
-/

namespace IdMint

namespace Snowflake

/-! ## One call after another -/

/-- A call made after a first one, unless that was refused: it goes on from what the first
left, and the results are joined. -/
def Call.andThen {κ α : Type} (join : α → α → α)
    (second : Generator → Supply κ → Option (Call κ α)) (first : Call κ α) :
    Option (Call κ α) :=
  match first.result with
  | .error _ => some first
  | .ok a => (second first.generator first.clock).map (Call.map (join a))

section

variable {κ α : Type} {join : α → α → α} {second third : Generator → Supply κ → Option (Call κ α)}

theorem Call.map_id (call : Call κ α) : call.map id = call := by
  obtain ⟨result, g, clock⟩ := call
  cases result <;> rfl

theorem Call.andThen_map (hassoc : ∀ a b c, join (join a b) c = join a (join b c)) (a : α)
    (call : Call κ α) :
    (call.map (join a)).andThen join third
      = (call.andThen join third).map (Call.map (join a)) := by
  obtain ⟨result, g, clock⟩ := call
  cases result with
  | error e => rfl
  | ok b =>
      show Option.map _ (third g clock) = Option.map _ (Option.map _ (third g clock))
      rw [Option.map_map]
      congr 1
      funext call
      obtain ⟨result, _, _⟩ := call
      cases result with
      | error e => rfl
      | ok c => simp [Call.map, Except.map, hassoc]

theorem Call.andThen_assoc (hassoc : ∀ a b c, join (join a b) c = join a (join b c))
    (first : Call κ α) :
    (first.andThen join second).bind (Call.andThen join third)
      = first.andThen join fun g clock => (second g clock).bind (Call.andThen join third) := by
  obtain ⟨result, g, clock⟩ := first
  cases result with
  | error e => rfl
  | ok a =>
      show Option.bind (Option.map _ (second g clock)) _ = Option.map _ (Option.bind _ _)
      rw [Option.bind_map, Option.map_bind]
      congr 1
      funext call
      exact Call.andThen_map hassoc a call

theorem Call.andThen_eq_ok_iff {first : Call κ α} {c : α} {g : Generator} {clock : Supply κ} :
    first.andThen join second = some { result := .ok c, generator := g, clock } ↔
      ∃ a b, first.result = .ok a ∧
        second first.generator first.clock = some { result := .ok b, generator := g, clock } ∧
        join a b = c := by
  rw [Call.andThen]
  cases hfirst : first.result with
  | error e =>
      simp only [Option.some.injEq, reduceCtorEq, false_and, exists_false, iff_false]
      rintro rfl
      cases hfirst
  | ok a =>
      rw [Option.map_eq_some_iff]
      constructor
      · rintro ⟨⟨result, _, _⟩, hsecond, hmap⟩
        cases result with
        | error e => cases hmap
        | ok b =>
            cases hmap
            exact ⟨a, b, rfl, hsecond, rfl⟩
      · rintro ⟨_, b, ⟨⟩, hsecond, rfl⟩
        exact ⟨_, hsecond, rfl⟩

theorem Call.andThen_eq_error_iff {first : Call κ α} {e : ClockError} {g : Generator}
    {clock : Supply κ} :
    first.andThen join second = some { result := .error e, generator := g, clock } ↔
      first = { result := .error e, generator := g, clock } ∨
        ∃ a, first.result = .ok a ∧
          second first.generator first.clock
            = some { result := .error e, generator := g, clock } := by
  rw [Call.andThen]
  cases hfirst : first.result with
  | error e' =>
      simp only [Option.some.injEq, reduceCtorEq, false_and, exists_false, or_false]
  | ok a =>
      rw [Option.map_eq_some_iff]
      constructor
      · rintro ⟨⟨result, _, _⟩, hsecond, hmap⟩
        cases result with
        | error e' =>
            cases hmap
            exact .inr ⟨a, rfl, hsecond⟩
        | ok b => cases hmap
      · rintro (rfl | ⟨_, _, hsecond⟩)
        · cases hfirst
        · exact ⟨_, hsecond, rfl⟩

end

section

variable {κ : Type} [Source κ Instant]

theorem batch_go_eq (newestFirst : List Id) (count : Nat) (g : Generator) (clock : Supply κ) :
    Generator.batch.go newestFirst g clock count
      = (g.batch count clock).map (Call.map (newestFirst.reverse ++ ·)) := by
  rw [Generator.batch]
  induction count generalizing newestFirst g clock with
  | zero => simp [Generator.batch.go, Call.map, Except.map]
  | succ count ih =>
      rw [Generator.batch.go, Generator.batch.go]
      cases g.next clock with
      | none => rfl
      | some call =>
          obtain ⟨result, g', clock'⟩ := call
          cases result with
          | error e => rfl
          | ok id =>
              show Generator.batch.go _ _ _ _ = Option.map _ (Generator.batch.go _ _ _ _)
              rw [ih (id :: newestFirst), ih [id], Option.map_map]
              congr 1
              funext rest
              obtain ⟨result, _, _⟩ := rest
              cases result <;> simp [Call.map, Except.map]

/-- A batch is a call and the batch of the rest. -/
theorem batch_succ (count : Nat) (g : Generator) (clock : Supply κ) :
    g.batch (count + 1) clock
      = (g.next clock).bind fun call =>
          (call.map fun id => [id]).andThen (· ++ ·) (Generator.batch count) := by
  rw [Generator.batch, Generator.batch.go]
  cases g.next clock with
  | none => rfl
  | some call =>
      obtain ⟨result, g', clock'⟩ := call
      cases result with
      | error e => rfl
      | ok id =>
          show Generator.batch.go _ _ _ _ = _
          rw [batch_go_eq]
          rfl

/-- A batch can be cut in two at any place. -/
theorem batch_add (m n : Nat) (g : Generator) (clock : Supply κ) :
    g.batch (m + n) clock
      = (g.batch m clock).bind (Call.andThen (· ++ ·) (Generator.batch n)) := by
  induction m generalizing g clock with
  | zero =>
      have hzero : g.batch 0 clock = some { result := .ok [], generator := g, clock } := rfl
      have hnil : (Call.map fun ids : List Id => [] ++ ids) = (id : Call κ (List Id) → _) := by
        funext call
        exact call.map_id
      rw [hzero, Option.bind_some, Nat.zero_add]
      show _ = Option.map (Call.map fun ids : List Id => [] ++ ids) (g.batch n clock)
      rw [hnil, Option.map_id_fun]
      rfl
  | succ m ih =>
      rw [Nat.add_right_comm, batch_succ, batch_succ, Option.bind_assoc]
      congr 1
      funext call
      rw [Call.andThen_assoc List.append_assoc]
      congr 1
      funext g' clock'
      exact ih g' clock'

/-! ## A batch and its calls -/

variable {count : Nat} {g g' : Generator} {clock clock' : Supply κ} {ids : List Id}

theorem batch_succ_eq_ok_iff :
    g.batch (count + 1) clock = some { result := .ok ids, generator := g', clock := clock' } ↔
      ∃ id rest g₁ clock₁, ids = id :: rest ∧
        g.next clock = some { result := .ok id, generator := g₁, clock := clock₁ } ∧
        g₁.batch count clock₁
          = some { result := .ok rest, generator := g', clock := clock' } := by
  rw [batch_succ, Option.bind_eq_some_iff]
  constructor
  · rintro ⟨⟨result, g₁, clock₁⟩, hcall, hrest⟩
    obtain ⟨first, rest, hfirst, hmore, rfl⟩ := Call.andThen_eq_ok_iff.mp hrest
    cases result with
    | error e => cases hfirst
    | ok id =>
        cases hfirst
        exact ⟨id, rest, g₁, clock₁, rfl, hcall, hmore⟩
  · rintro ⟨id, rest, g₁, clock₁, rfl, hcall, hrest⟩
    exact ⟨_, hcall, Call.andThen_eq_ok_iff.mpr ⟨[id], rest, rfl, hrest, rfl⟩⟩

theorem run_succ_eq_ok_iff :
    g.run (count + 1) clock
        = some { results := ids.map .ok, generator := g', clock := clock' } ↔
      ∃ id rest g₁ clock₁, ids = id :: rest ∧
        g.next clock = some { result := .ok id, generator := g₁, clock := clock₁ } ∧
        g₁.run count clock₁
          = some { results := rest.map .ok, generator := g', clock := clock' } := by
  rw [run_succ, Option.bind_eq_some_iff]
  constructor
  · rintro ⟨⟨result, g₁, clock₁⟩, hcall, hrest⟩
    obtain ⟨⟨results, _, _⟩, hmore, heq⟩ := Option.map_eq_some_iff.mp hrest
    cases ids with
    | nil => cases heq
    | cons id rest =>
        cases heq
        exact ⟨id, rest, g₁, clock₁, rfl, hcall, hmore⟩
  · rintro ⟨id, rest, g₁, clock₁, rfl, hcall, hrest⟩
    exact ⟨_, hcall, Option.map_eq_some_iff.mpr ⟨_, hrest, rfl⟩⟩

/-- A batch succeeds exactly if its calls do, and then it is their ids. -/
theorem batch_eq_ok_iff :
    g.batch count clock = some { result := .ok ids, generator := g', clock := clock' } ↔
      g.run count clock
        = some { results := ids.map .ok, generator := g', clock := clock' } := by
  induction count generalizing g clock ids with
  | zero =>
      show some _ = some _ ↔ some _ = some _
      simp [eq_comm]
  | succ count ih => simp only [batch_succ_eq_ok_iff, run_succ_eq_ok_iff, ih]

theorem length_of_run {r : Generator.Run κ} (h : g.run count clock = some r) :
    r.results.length = count := by
  induction count generalizing g clock r with
  | zero =>
      cases h
      rfl
  | succ count ih =>
      rw [run_succ] at h
      obtain ⟨call, _, h⟩ := Option.bind_eq_some_iff.mp h
      obtain ⟨rest, hrest, rfl⟩ := Option.map_eq_some_iff.mp h
      exact congrArg Nat.succ (ih hrest)

/-- A batch fails exactly if one of its calls does after some that succeed. It ends with
that call and its error. -/
theorem batch_eq_error_iff {e : ClockError} :
    g.batch count clock = some { result := .error e, generator := g', clock := clock' } ↔
      ∃ (ids : List Id) (g₁ : Generator) (clock₁ : Supply κ), ids.length < count ∧
        g.run ids.length clock
          = some { results := ids.map .ok, generator := g₁, clock := clock₁ } ∧
        g₁.next clock₁ = some { result := .error e, generator := g', clock := clock' } := by
  constructor
  · intro h
    induction count generalizing g clock with
    | zero => cases h
    | succ count ih =>
        rw [batch_succ, Option.bind_eq_some_iff] at h
        obtain ⟨⟨result, g₁, clock₁⟩, hcall, h⟩ := h
        cases result with
        | error e' =>
            rcases Call.andThen_eq_error_iff.mp h with hfirst | ⟨_, hfirst, _⟩
            · cases hfirst
              exact ⟨[], g, clock, Nat.succ_pos count, rfl, hcall⟩
            · cases hfirst
        | ok id =>
            rcases Call.andThen_eq_error_iff.mp h with hfirst | ⟨_, _, hrest⟩
            · cases hfirst
            · obtain ⟨ids, g₂, clock₂, hlength, hrun, hnext⟩ := ih hrest
              exact ⟨id :: ids, g₂, clock₂, Nat.succ_lt_succ hlength,
                run_succ_eq_ok_iff.mpr ⟨id, ids, g₁, clock₁, rfl, hcall, hrun⟩, hnext⟩
  · rintro ⟨ids, g₁, clock₁, hlength, hrun, hnext⟩
    -- The batch is cut before the call that fails.
    obtain ⟨more, rfl⟩ : ∃ more, count = ids.length + (more + 1) :=
      ⟨count - ids.length - 1, by omega⟩
    rw [batch_add, batch_eq_ok_iff.mpr hrun, Option.bind_some]
    refine Call.andThen_eq_error_iff.mpr (.inr ⟨ids, rfl, ?_⟩)
    show g₁.batch (more + 1) clock₁ = _
    rw [batch_succ, hnext]
    rfl

/-- A batch makes no more calls than the run does. -/
theorem batch_ne_none_of_run (h : g.run count clock ≠ none) : g.batch count clock ≠ none := by
  induction count generalizing g clock with
  | zero => exact Option.some_ne_none _
  | succ count ih =>
      rw [run_succ] at h
      rw [batch_succ]
      cases hcall : g.next clock with
      | none =>
          rw [hcall] at h
          exact absurd rfl h
      | some call =>
          obtain ⟨result, g₁, clock₁⟩ := call
          rw [hcall, Option.bind_some, ne_eq, Option.map_eq_none_iff] at h
          cases result with
          | error e => exact Option.some_ne_none _
          | ok id => exact mt Option.map_eq_none_iff.mp (ih h)

/-- Ids that are issued within the window are those of slots at one address. -/
theorem slots_of_run {readings : List Instant}
    (h : g.run count clock = some { results := ids.map .ok, generator := g', clock := clock' })
    (htaken : clock.Gives readings clock') (hw : ∀ t ∈ readings, InWindow t.unixMillis) :
    ∃ slots : List Slot, ids = slots.map (Slot.id g.address) ∧ ∀ s ∈ slots, InWindow s.millis := by
  obtain ⟨log, hserves, hanswers, hgives, _⟩ := run_without_refusals h
  obtain rfl := htaken.unique hgives
  have hwlog : WithinWindow log :=
    fun e he t ht => hw t (List.mem_flatMap.mpr ⟨e, he, ht⟩)
  obtain ⟨slots, hids, _, hslots⟩ := slots_of_serves hserves hwlog
  refine ⟨slots, ?_, hslots⟩
  have hread : issuedIds log
      = (log.map Entry.answer).filterMap fun answer => answer.toOption.bind Receipt.id? := by
    rw [List.filterMap_map]
    rfl
  rw [← hids, hread, hanswers, List.map_map, List.filterMap_map]
  exact List.filterMap_some.symm

/-- Within the window an id is read from its short form, and its fields tell the address
and make the id again. -/
theorem Slot.forms_of_id {s : Slot} (address : Address) (h : InWindow s.millis) :
    Base62.decode? (Base62.encode (s.id address)) = some (s.id address) ∧
      (Fields.decompose (s.id address)).compose = s.id address ∧
      (Fields.decompose (s.id address)).datacenter = address.datacenter.val ∧
      (Fields.decompose (s.id address)).worker = address.worker.val := by
  rw [s.decompose_id address h]
  exact ⟨Base62.decode?_encode (s.id_nonneg address h), rfl, rfl, rfl⟩

end

end Snowflake

/-! ## Documents -/

/-- The member of a document that has a name. -/
def Json.member? (name : Bytes) : Json → Option Json
  | .members entries => entries.lookup name
  | _ => none

namespace Command

open Snowflake

/-- Two batches of one kind as one. -/
def IdBatch.append (first second : IdBatch) : IdBatch :=
  { first with ids := first.ids ++ second.ids }

/-- An id with fields, as a document shows it. -/
def explainedEntry (id : Id) (fields : Fields) : Json :=
  .members
    [member "datacenter_id" (.int fields.datacenter),
     member "id" (.int id.toInt),
     member "sequence" (.int fields.sequence),
     member "timestamp_ms" (.int fields.timestampMillis),
     member "worker_id" (.int fields.worker)]

theorem member?_ids (batch : IdBatch) :
    batch.toJson.member? (ascii "ids") = some (.list (batch.ids.map batch.form.show)) := rfl

section

variable {κ : Type} [Source κ Instant]

/-- The batch ends: with a document or with a message, and with this generator and clock
left behind. -/
def Replies (batch? : Option (Call κ IdBatch)) (reply : Except Bytes Json) (g : Generator)
    (clock : Supply κ) : Prop :=
  ∃ result, batch? = some { result, generator := g, clock } ∧
    reply = (result.mapError ClockError.message).map IdBatch.toJson

/-- The batch ends with a document that lists these entries as its ids. -/
def Lists (batch? : Option (Call κ IdBatch)) (entries : List Json) (g : Generator)
    (clock : Supply κ) : Prop :=
  ∃ document, Replies batch? (.ok document) g clock ∧
    document.member? (ascii "ids") = some (.list entries)

variable {g g' : Generator} {identity : Identity} {config : IssueConfig} {clock clock' : Supply κ}

theorem issueBatch_eq_ok_iff {batch : IdBatch} :
    issueBatch g identity config clock
        = some { result := .ok batch, generator := g', clock := clock' } ↔
      ∃ ids, batch = { identity, form := config.form, ids } ∧
        g.run config.count.toNat clock
          = some { results := ids.map .ok, generator := g', clock := clock' } := by
  rw [issueBatch, Option.map_eq_some_iff]
  constructor
  · rintro ⟨⟨result, _, _⟩, hbatch, hmap⟩
    cases result with
    | error e => cases hmap
    | ok ids =>
        cases hmap
        exact ⟨ids, rfl, batch_eq_ok_iff.mp hbatch⟩
  · rintro ⟨ids, rfl, hrun⟩
    exact ⟨_, batch_eq_ok_iff.mpr hrun, rfl⟩

theorem issueBatch_eq_error_iff {e : ClockError} :
    issueBatch g identity config clock
        = some { result := .error e, generator := g', clock := clock' } ↔
      ∃ (ids : List Id) (g₁ : Generator) (clock₁ : Supply κ), ids.length < config.count.toNat ∧
        g.run ids.length clock
          = some { results := ids.map .ok, generator := g₁, clock := clock₁ } ∧
        g₁.next clock₁ = some { result := .error e, generator := g', clock := clock' } := by
  rw [← batch_eq_error_iff, issueBatch, Option.map_eq_some_iff]
  constructor
  · rintro ⟨⟨result, _, _⟩, hbatch, hmap⟩
    cases result with
    | error e =>
        cases hmap
        exact hbatch
    | ok ids => cases hmap
  · intro hbatch
    exact ⟨_, hbatch, rfl⟩

theorem replies_document_iff {document : Json} :
    Replies (issueBatch g identity config clock) (.ok document) g' clock' ↔
      ∃ ids, g.run config.count.toNat clock
          = some { results := ids.map .ok, generator := g', clock := clock' } ∧
        document = IdBatch.toJson { identity, form := config.form, ids } := by
  constructor
  · rintro ⟨result, hbatch, hreply⟩
    cases result with
    | error e => cases hreply
    | ok batch =>
        cases hreply
        obtain ⟨ids, rfl, hrun⟩ := issueBatch_eq_ok_iff.mp hbatch
        exact ⟨ids, hrun, rfl⟩
  · rintro ⟨ids, hrun, rfl⟩
    exact ⟨_, issueBatch_eq_ok_iff.mpr ⟨ids, rfl, hrun⟩, rfl⟩

theorem replies_message_iff {message : Bytes} :
    Replies (issueBatch g identity config clock) (.error message) g' clock' ↔
      ∃ (ids : List Id) (g₁ : Generator) (clock₁ : Supply κ) (e : ClockError),
        ids.length < config.count.toNat ∧
        g.run ids.length clock
          = some { results := ids.map .ok, generator := g₁, clock := clock₁ } ∧
        g₁.next clock₁ = some { result := .error e, generator := g', clock := clock' } ∧
        message = e.message := by
  constructor
  · rintro ⟨result, hbatch, hreply⟩
    cases result with
    | error e =>
        cases hreply
        obtain ⟨ids, g₁, clock₁, hlength, hrun, hnext⟩ := issueBatch_eq_error_iff.mp hbatch
        exact ⟨ids, g₁, clock₁, e, hlength, hrun, hnext, rfl⟩
    | ok batch => cases hreply
  · rintro ⟨ids, g₁, clock₁, e, hlength, hrun, hnext, rfl⟩
    exact ⟨_, issueBatch_eq_error_iff.mpr ⟨ids, g₁, clock₁, hlength, hrun, hnext⟩, rfl⟩

theorem issueBatch_add (g : Generator) (identity : Identity) (config : IssueConfig)
    (clock : Supply κ) (m n : Nat) :
    issueBatch g identity { config with count := (m + n : Nat) } clock
      = (issueBatch g identity { config with count := m } clock).bind
          (Call.andThen IdBatch.append fun g' clock' =>
            issueBatch g' identity { config with count := n } clock') := by
  simp only [issueBatch, Int.toNat_natCast]
  rw [batch_add, Option.map_bind, Option.bind_map]
  congr 1
  funext first
  obtain ⟨result, g', clock'⟩ := first
  cases result with
  | error e => rfl
  | ok ids =>
      show Option.map _ (Option.map _ (g'.batch n clock'))
        = Option.map _ (Option.map _ (g'.batch n clock'))
      rw [Option.map_map, Option.map_map]
      congr 1
      funext second
      obtain ⟨result, _, _⟩ := second
      cases result <;> rfl

theorem lists_of_run {ids : List Id} (config : IssueConfig)
    (h : g.run config.count.toNat clock
      = some { results := ids.map .ok, generator := g', clock := clock' }) :
    Lists (issueBatch g identity config clock) (ids.map config.form.show) g' clock' :=
  ⟨_, replies_document_iff.mpr ⟨ids, h, rfl⟩, member?_ids _⟩

/-- A batch is its calls, one after the other. It ends with a document exactly if all the
calls succeed, and the document lists their ids in order; it ends with a message exactly if
a call fails after some that succeed, and then the message is that call's, and generator and
clock are left as it left them. So a batch may be cut in two at any place. And the three
forms of a batch show the same ids: within the window the texts are read as the ids, and the
fields make the ids again and tell the address of the generator. -/
theorem batch_is_its_calls (g : Generator) (identity : Identity) (config : IssueConfig)
    (clock : Supply κ) :
    (∀ document g' clock',
      Replies (issueBatch g identity config clock) (.ok document) g' clock' ↔
        ∃ ids : List Id, ids.length = config.count.toNat ∧
          g.run config.count.toNat clock
            = some { results := ids.map .ok, generator := g', clock := clock' } ∧
          document = IdBatch.toJson { identity, form := config.form, ids } ∧
          document.member? (ascii "ids") = some (.list (ids.map config.form.show))) ∧
    (∀ message g' clock',
      Replies (issueBatch g identity config clock) (.error message) g' clock' ↔
        ∃ (ids : List Id) (g₁ : Generator) (clock₁ : Supply κ) (e : ClockError),
          ids.length < config.count.toNat ∧
          g.run ids.length clock
            = some { results := ids.map .ok, generator := g₁, clock := clock₁ } ∧
          g₁.next clock₁ = some { result := .error e, generator := g', clock := clock' } ∧
          message = e.message) ∧
    (g.run config.count.toNat clock ≠ none → issueBatch g identity config clock ≠ none) ∧
    (∀ m n : Nat,
      issueBatch g identity { config with count := (m + n : Nat) } clock
        = (issueBatch g identity { config with count := m } clock).bind
            (Call.andThen IdBatch.append fun g' clock' =>
              issueBatch g' identity { config with count := n } clock')) ∧
    ∀ (ids : List Id) (g' : Generator) (clock' : Supply κ) (readings : List Instant),
      g.run config.count.toNat clock
        = some { results := ids.map .ok, generator := g', clock := clock' } →
      clock.Gives readings clock' → (∀ t ∈ readings, InWindow t.unixMillis) →
      ∃ (texts : List Bytes) (fields : List Fields),
        texts.map Base62.decode? = ids.map some ∧ fields.map Fields.compose = ids ∧
        (∀ f ∈ fields, f.datacenter = g.address.datacenter.val ∧
          f.worker = g.address.worker.val) ∧
        Lists (issueBatch g identity { config with short := false, explain := false } clock)
          (ids.map fun id => .int id.toInt) g' clock' ∧
        Lists (issueBatch g identity { config with short := true } clock)
          (texts.map .text) g' clock' ∧
        Lists (issueBatch g identity { config with short := false, explain := true } clock)
          (List.zipWith explainedEntry ids fields) g' clock' := by
  refine ⟨?_, fun _ _ _ => replies_message_iff, ?_, issueBatch_add g identity config clock, ?_⟩
  · intro document g' clock'
    rw [replies_document_iff]
    constructor
    · rintro ⟨ids, hrun, rfl⟩
      have hlength := length_of_run hrun
      rw [List.length_map] at hlength
      exact ⟨ids, hlength, hrun, rfl, member?_ids _⟩
    · rintro ⟨ids, _, hrun, rfl, _⟩
      exact ⟨ids, hrun, rfl⟩
  · intro hrun
    rw [issueBatch, ne_eq, Option.map_eq_none_iff]
    exact batch_ne_none_of_run hrun
  · intro ids g' clock' readings hrun htaken hw
    obtain ⟨slots, hids, hslots⟩ := slots_of_run hrun htaken hw
    have hforms : ∀ id ∈ ids, Base62.decode? (Base62.encode id) = some id ∧
        (Fields.decompose id).compose = id ∧
        (Fields.decompose id).datacenter = g.address.datacenter.val ∧
        (Fields.decompose id).worker = g.address.worker.val := by
      intro id hid
      rw [hids] at hid
      obtain ⟨s, hs, rfl⟩ := List.mem_map.mp hid
      exact Slot.forms_of_id g.address (hslots s hs)
    refine ⟨ids.map Base62.encode, ids.map Fields.decompose, ?_, ?_, ?_, lists_of_run _ hrun, ?_,
      ?_⟩
    · rw [List.map_map]
      exact List.map_congr_left fun id hid => (hforms id hid).1
    · rw [List.map_map]
      exact (List.map_congr_left fun id hid => (hforms id hid).2.1).trans (List.map_id ids)
    · intro f hf
      obtain ⟨id, hid, rfl⟩ := List.mem_map.mp hf
      exact (hforms id hid).2.2
    · rw [List.map_map]
      exact lists_of_run { config with short := true } hrun
    · rw [List.zipWith_map_right, List.zipWith_self]
      exact lists_of_run { config with short := false, explain := true } hrun

end

/-- Two calls in one millisecond, then a clock two milliseconds behind: a batch of two lists
both ids in every form, and a batch of three ends with the message of the third call. -/
theorem batch_is_its_calls_until_refused :
    ∃ (g g' : Generator) (identity : Identity) (clock between later : Supply (Tape Instant))
      (ids : List Id) (texts : List Bytes),
      Generator.create 3 7 = .ok g ∧ ids.length = 2 ∧ texts.map Base62.decode? = ids.map some ∧
        Lists (issueBatch g identity { count := 2, short := true } clock) (texts.map .text)
          g' between ∧
        Replies (issueBatch g identity { count := 3 } clock)
          (.error (ascii "clock moved backwards, refusing to generate id for 2 milliseconds"))
          g' later := by
  let t : Instant := .ofUnixMillis (epochMillis + 5)
  let early : Instant := .ofUnixMillis (epochMillis + 3)
  let fresh : Generator := { address := { worker := 3, datacenter := 7 } }
  let twice : Generator := { fresh with last := { millis := epochMillis + 5, sequence := 1 } }
  let clock (left : List Instant) (asked : Nat) : Supply (Tape Instant) :=
    { state := ⟨left, early⟩, asked, allowance := left.length }
  let identity : Identity := ⟨⟨3, .explicit⟩, ⟨7, .explicit⟩⟩
  let ids : List Id :=
    [Slot.id fresh.address ⟨epochMillis + 5, 0⟩, Slot.id fresh.address ⟨epochMillis + 5, 1⟩]
  have hrun : fresh.run 2 (clock [t, t, early] 0)
      = some { results := ids.map .ok, generator := twice, clock := clock [early] 2 } := rfl
  have hrefused : twice.next (clock [early] 2)
      = some { result := .error ⟨2⟩, generator := twice, clock := clock [] 3 } := rfl
  have htaken : (clock [t, t, early] 0).Gives [t, t] (clock [early] 2) :=
    .cons rfl (.cons rfl .nil)
  have hw : ∀ u ∈ [t, t], InWindow u.unixMillis := by decide
  obtain ⟨_, _, _, _, hforms⟩ :=
    batch_is_its_calls fresh identity { count := 2 } (clock [t, t, early] 0)
  obtain ⟨_, hmessage, _⟩ :=
    batch_is_its_calls fresh identity { count := 3 } (clock [t, t, early] 0)
  obtain ⟨texts, _, htexts, _, _, _, hshort, _⟩ := hforms ids twice _ _ hrun htaken hw
  exact ⟨fresh, twice, identity, _, _, _, ids, texts, rfl, rfl, htexts, hshort,
    (hmessage _ _ _).mpr ⟨ids, twice, _, ⟨2⟩, by decide, hrun, hrefused, by decide⟩⟩

end Command

end IdMint
