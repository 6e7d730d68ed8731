import IdMint.Proofs.Issuing

/-!
# A refusal leaves no trace

Only the first reading of a call can be refused, and it is refused exactly if it
is behind the last millisecond that an id was issued for. A run knows that
millisecond without looking into the generator: it is that of the reading which
settled the last call that handed out an id.

A refused call takes its one reading and changes nothing else. So it can be
struck out of a run together with that reading, and what is left is a run of
the same generator to the same end. `run_without_refusals` says so of a clock:
any clock that shows the readings that are left is asked for that many ids and
gives the ids of the first run.
-/

namespace IdMint.Snowflake

/-! ## The last millisecond -/

/-- Whether the call handed out an id. -/
def Entry.issued (e : Entry) : Bool := e.answer.isOk

/-- The reading that settled the call, if it handed out an id. -/
def Entry.settling? (e : Entry) : Option Instant :=
  e.answer.toOption.bind fun _ => e.readings.getLast?

/-- The last millisecond that a run issued an id for; before the first id, -1. -/
def lastMillis (log : List Entry) : Int :=
  ((log.filterMap Entry.settling?).getLast?).elim (-1) Instant.unixMillis

/-- A call is refused and leaves the generator alone, or is settled by a reading that the
generator remembers the millisecond of. -/
theorem settling_of_handles {g g' : Generator} {e : Entry} (h : g.Handles e g') :
    (e.issued = false ∧ e.settling? = none ∧ g' = g) ∨
      ∃ t, e.issued = true ∧ e.settling? = some t ∧ g'.last.millis = t.unixMillis := by
  simp only [Entry.settling?, Entry.issued]
  rcases handles_cases h with ⟨rfl, error, herror⟩ | ⟨slot, r, hreach, rfl, hok, _⟩
  · rw [herror]
    exact .inl ⟨rfl, rfl, rfl⟩
  · obtain ⟨t, hlast, hmillis⟩ := hreach.getLast?
    rw [hok]
    exact .inr ⟨t, rfl, hlast, hmillis⟩

theorem millis_of_serves {g g' : Generator} {log : List Entry} (h : g.Serves log g') :
    g'.last.millis
      = ((log.filterMap Entry.settling?).getLast?).elim g.last.millis Instant.unixMillis := by
  induction h with
  | nil => rfl
  | @cons g g₁ g' e log hcall _ ih =>
      rw [ih]
      rcases settling_of_handles hcall with ⟨_, hnone, rfl⟩ | ⟨t, _, hsettling, hmillis⟩
      · rw [List.filterMap_cons_none hnone]
      · rw [List.filterMap_cons_some hsettling, List.getLast?_cons, hmillis]
        cases (log.filterMap Entry.settling?).getLast? <;> rfl

/-- The generator remembers the last millisecond of its run. -/
theorem millis_of_serves_of_create {worker datacenter : Int} {g g' : Generator}
    {log : List Entry} (hcreate : Generator.create worker datacenter = .ok g)
    (hrun : g.Serves log g') : g'.last.millis = lastMillis log := by
  obtain ⟨_, _, hlast⟩ := create_eq_ok hcreate
  rw [millis_of_serves hrun, hlast, lastMillis]

/-! ## Which readings are refused -/

theorem answers_error_iff {g g' : Generator} {readings : List Instant} {e : ClockError} :
    g.Answers readings (.error e) g' ↔
      ∃ t, readings = [t] ∧ t.unixMillis < g.last.millis ∧
        e = ⟨g.last.millis - t.unixMillis⟩ ∧ g' = g := by
  constructor
  · intro h
    cases h with
    | refused hbehind => exact ⟨_, rfl, hbehind, rfl, rfl⟩
  · rintro ⟨t, rfl, hbehind, rfl, rfl⟩
    exact .refused hbehind

section

variable {κ : Type} [Source κ Instant] {g : Generator} {clock later : Supply κ} {t : Instant}

/-- A call that finds a reading behind the last millisecond is refused for that reading. -/
theorem next_of_behind (hfirst : clock.Gives [t] later) (hbehind : t.unixMillis < g.last.millis) :
    g.next clock
      = some { result := .error ⟨g.last.millis - t.unixMillis⟩, generator := g, clock := later } :=
  next_eq_some_iff.mpr ⟨[t], hfirst, .refused hbehind⟩

/-- A call that is refused was refused for its first reading, and took no other. -/
theorem behind_of_error {call : Call κ Id} {e : ClockError} (hfirst : clock.Gives [t] later)
    (hcall : g.next clock = some call) (herror : call.result = .error e) :
    t.unixMillis < g.last.millis ∧ e.regression = g.last.millis - t.unixMillis ∧
      call.generator = g ∧ call.clock = later := by
  obtain ⟨readings, hgives, hanswers⟩ := next_eq_some_iff.mp hcall
  rw [herror] at hanswers
  obtain ⟨u, rfl, hbehind, rfl, hg⟩ := answers_error_iff.mp hanswers
  have hsame := (Supply.next?_eq_some_iff.mpr hfirst).symm.trans
    (Supply.next?_eq_some_iff.mpr hgives)
  obtain ⟨rfl, rfl⟩ := Prod.mk.inj (Option.some.inj hsame)
  exact ⟨hbehind, rfl, hg, rfl⟩

/-- A call that reads on after its first reading hands out an id, whatever it reads. -/
theorem ok_of_waited {call : Call κ Id} {readings : List Instant}
    (hcall : g.next clock = some call) (htaken : clock.Gives readings call.clock)
    (hmore : 1 < readings.length) : ∃ id, call.result = .ok id := by
  obtain ⟨readings', htaken', hanswers⟩ := next_eq_some_iff.mp hcall
  rw [← htaken.unique htaken'] at hanswers
  cases hresult : call.result with
  | ok id => exact ⟨id, rfl⟩
  | error e =>
      rw [hresult] at hanswers
      obtain ⟨u, rfl, _⟩ := answers_error_iff.mp hanswers
      exact absurd hmore (Nat.lt_irrefl 1)

end

/-! ## Striking refusals out -/

theorem serves_filter_issued {g g' : Generator} {log : List Entry} (h : g.Serves log g') :
    g.Serves (log.filter Entry.issued) g' := by
  induction h with
  | nil => exact .nil
  | cons hcall _ ih =>
      rcases settling_of_handles hcall with ⟨hrefused, _, rfl⟩ | ⟨_, hissued, _⟩
      · rw [List.filter_cons_of_neg (by simp [hrefused])]
        exact ih
      · rw [List.filter_cons_of_pos hissued]
        exact .cons hcall ih

theorem issuedIds_filter_issued (log : List Entry) :
    issuedIds (log.filter Entry.issued) = issuedIds log := by
  rw [issuedIds, issuedIds, List.filterMap_filter]
  refine List.filterMap_congr fun e _ => ?_
  obtain ⟨answer, _⟩ := e
  cases answer <;> rfl

section

variable {κ : Type} [Source κ Instant]

theorem run_go_eq (newestFirst : List (Except ClockError Id)) (count : Nat) (g : Generator)
    (clock : Supply κ) :
    Generator.run.go newestFirst g clock count
      = (g.run count clock).map fun r =>
          { r with results := newestFirst.reverse ++ r.results } := by
  rw [Generator.run]
  induction count generalizing newestFirst g clock with
  | zero => simp [Generator.run.go]
  | succ count ih =>
      rw [Generator.run.go, Generator.run.go]
      cases g.next clock with
      | none => rfl
      | some call =>
          show Generator.run.go _ _ _ _ = Option.map _ (Generator.run.go _ _ _ _)
          rw [ih (call.result :: newestFirst), ih [call.result], Option.map_map]
          congr 1
          funext r
          simp

theorem run_succ (count : Nat) (g : Generator) (clock : Supply κ) :
    g.run (count + 1) clock
      = (g.next clock).bind fun call =>
          (call.generator.run count call.clock).map fun r =>
            { r with results := call.result :: r.results } := by
  rw [Generator.run, Generator.run.go]
  cases g.next clock with
  | none => rfl
  | some call =>
      show Generator.run.go _ _ _ _ = _
      rw [run_go_eq]
      rfl

/-- The calls of a run, with the readings that each of them took. On any clock that shows
the readings of those calls that were not refused, as many calls are answered as the
first time, and leave the same generator. -/
theorem run_without_refusals {count : Nat} {g : Generator} {clock : Supply κ}
    {r : Generator.Run κ} (h : g.run count clock = some r) :
    ∃ log, g.Serves log r.generator ∧ log.map Entry.answer = r.results.map (Except.map .number) ∧
      clock.Gives (log.flatMap Entry.readings) r.clock ∧
      ∀ {κ' : Type} [Source κ' Instant] {clock' later : Supply κ'},
        clock'.Gives ((log.filter Entry.issued).flatMap Entry.readings) later →
        g.run (log.filter Entry.issued).length clock'
          = some { results := r.results.filter Except.isOk, generator := r.generator,
                   clock := later } := by
  induction count generalizing g clock r with
  | zero =>
      cases h
      refine ⟨[], .nil, rfl, .nil, ?_⟩
      intro _ _ _ _ hgives
      cases hgives
      rfl
  | succ count ih =>
      rw [run_succ] at h
      obtain ⟨call, hcall, h⟩ := Option.bind_eq_some_iff.mp h
      obtain ⟨rest, hrun, rfl⟩ := Option.map_eq_some_iff.mp h
      obtain ⟨log, hserves, hresults, hgives, hagain⟩ := ih hrun
      obtain ⟨readings, htaken, hanswers⟩ := next_eq_some_iff.mp hcall
      refine ⟨{ answer := call.result.map .number, readings } :: log,
        .cons (.number hcall htaken) hserves, by rw [List.map_cons, hresults]; rfl,
        htaken.append hgives, ?_⟩
      intro _ _ clock' later hgives'
      generalize call.result = result at hanswers hgives' ⊢
      generalize call.generator = g₁ at hanswers hagain ⊢
      cases hanswers with
      | refused =>
          -- The call is struck out, and the generator is the same as before it.
          exact hagain hgives'
      | issued hreach =>
          obtain ⟨clock₁, hfirst, hrest⟩ := Supply.gives_append_iff.mp hgives'
          have hcall' : g.next clock' = some { result := .ok _, generator := _, clock := clock₁ } :=
            next_eq_some_iff.mpr ⟨readings, hfirst, .issued hreach⟩
          show g.run (_ + 1) clock' = _
          rw [run_succ, hcall']
          show Option.map _ _ = _
          rw [hagain hrest]
          rfl

end

/-! ## The law of refusals -/

/-- Refusals are exact and leave no trace. After any run of a new generator, a call is
refused if and only if its first reading is behind the last millisecond that an id was
issued for; it then tells the difference, has taken that one reading, and has changed
nothing. So the calls that were refused can be struck out together with their readings:
what is left is a run that hands out the same to the same end, and a clock that shows
only the readings left is answered in the same way. And whatever a call reads while it
waits, it is not refused for it. -/
theorem refusals_leave_no_trace {worker datacenter : Int} {g g' : Generator} {log : List Entry}
    (hcreate : Generator.create worker datacenter = .ok g) (hrun : g.Serves log g') :
    (∀ {κ : Type} [Source κ Instant] {clock later : Supply κ} {t : Instant},
      clock.Gives [t] later →
      ((∃ call e, g'.next clock = some call ∧ call.result = .error e) ↔
        t.unixMillis < lastMillis log) ∧
      ∀ call e, g'.next clock = some call → call.result = .error e →
        e.regression = lastMillis log - t.unixMillis ∧ 0 < e.regression ∧
          call.generator = g' ∧ call.clock = later ∧ call.clock.asked = clock.asked + 1) ∧
    (g.Serves (log.filter Entry.issued) g' ∧
      issuedIds (log.filter Entry.issued) = issuedIds log) ∧
    (∀ {κ : Type} [Source κ Instant] {count : Nat} {clock : Supply κ} {r : Generator.Run κ},
      g'.run count clock = some r →
      ∃ calls, g'.Serves calls r.generator ∧
        calls.map Entry.answer = r.results.map (Except.map .number) ∧
        clock.Gives (calls.flatMap Entry.readings) r.clock ∧
        ∀ {κ' : Type} [Source κ' Instant] {clock' later : Supply κ'},
          clock'.Gives ((calls.filter Entry.issued).flatMap Entry.readings) later →
          g'.run (calls.filter Entry.issued).length clock'
            = some { results := r.results.filter Except.isOk, generator := r.generator,
                     clock := later }) ∧
    ∀ {κ : Type} [Source κ Instant] {clock : Supply κ} {call : Call κ Id}
      {readings : List Instant}, g'.next clock = some call → clock.Gives readings call.clock →
      1 < readings.length → ∃ id, call.result = .ok id := by
  have hmillis := millis_of_serves_of_create hcreate hrun
  refine ⟨?_, ⟨serves_filter_issued hrun, issuedIds_filter_issued log⟩, run_without_refusals,
    ok_of_waited⟩
  intro κ _ clock later t hfirst
  rw [← hmillis]
  refine ⟨⟨?_, fun hbehind => ⟨_, _, next_of_behind hfirst hbehind, rfl⟩⟩, ?_⟩
  · rintro ⟨call, e, hcall, herror⟩
    exact (behind_of_error hfirst hcall herror).1
  · intro call e hcall herror
    obtain ⟨hbehind, hregression, hg, rfl⟩ := behind_of_error hfirst hcall herror
    exact ⟨hregression, by omega, hg, rfl, hfirst.asked_eq⟩

/-- One id, then a reading two milliseconds behind it: the call is refused by two, also the
second time, and without the refusals the run is the one call. -/
theorem refusals_leave_no_trace_two_millis_back :
    ∃ (g g' : Generator) (log : List Entry) (clock : Supply (Tape Instant)),
      Generator.create 3 7 = .ok g ∧ g.Serves log g' ∧ lastMillis log = epochMillis + 5 ∧
        log.map Entry.issued = [true, false] ∧ g.Serves (log.filter Entry.issued) g' ∧
        ∃ call, g'.next clock = some call ∧ call.result = .error ⟨2⟩ ∧ call.generator = g' := by
  let t : Instant := .ofUnixMillis (epochMillis + 5)
  let early : Instant := .ofUnixMillis (epochMillis + 3)
  let fresh : Generator := { address := { worker := 3, datacenter := 7 } }
  let once : Generator := { fresh with last := { millis := epochMillis + 5, sequence := 0 } }
  let log : List Entry :=
    [{ answer := .ok (.number (once.last.id once.address)), readings := [t] },
     { answer := .error ⟨2⟩, readings := [early] }]
  have h₁ : fresh.Answers [t] (.ok (once.last.id once.address)) once :=
    .issued (.later (by decide))
  have h₂ : once.Answers [early] (.error ⟨2⟩) once := .refused (by decide)
  have hcreate : Generator.create 3 7 = .ok fresh := rfl
  have hrun : fresh.Serves log once :=
    .cons (handles_of_answers h₁).1 (.cons (handles_of_answers h₂).1 .nil)
  have hlast : lastMillis log = epochMillis + 5 := by decide
  obtain ⟨hrefusal, ⟨hstruck, _⟩, _⟩ := refusals_leave_no_trace hcreate hrun
  have hfirst := Supply.gives_tape early [early] 0
  obtain ⟨call, e, hcall, herror⟩ := (hrefusal hfirst).1.mpr (by rw [hlast]; decide)
  obtain ⟨hregression, _, hg, _⟩ := (hrefusal hfirst).2 call e hcall herror
  have he : e = ⟨2⟩ := by
    rw [hlast] at hregression
    exact congrArg ClockError.mk hregression
  exact ⟨fresh, once, log, _, hcreate, hrun, hlast, rfl, hstruck, call, hcall, he ▸ herror, hg⟩

end IdMint.Snowflake
