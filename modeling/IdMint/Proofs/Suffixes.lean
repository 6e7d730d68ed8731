import IdMint.Proofs.Decimal
import IdMint.Proofs.Turns
import IdMint.Time.Clock

/-!
# Randomness shows in the suffix only

Two sessions that issue the same numbers on the same clock, each with randomness
of its own, can be told apart by the suffixes and by nothing else: not by the
other digits, and not by what the sequence remembers.

Draws do not reach the sequence at all. They could reach it through the clock,
since a draw that fails is replaced by a reading, and a clock that moves when it
is read then shows the next number something else. So there are two conditions
and either is enough: no draw fails, or the clock does not move when it is read.

What carries both is that the sessions stay in step: their clocks show the same,
and each was read once more for every draw that failed there. A turn keeps this
because it depends on what the clock shows; a suffix keeps it under either
condition.
-/

namespace IdMint

/-! ## Sessions -/

/-- A way to move a clock by hand. -/
inductive Move where
  | set (t : Instant)
  | advance (nanos : Int)
  | setAutoStep (nanos : Int)

def Move.apply : Move → ManualClock → ManualClock
  | .set t, c => c.set t
  | .advance nanos, c => c.advance nanos
  | .setAutoStep nanos, c => c.setAutoStep nanos

namespace Flow

inductive Step where
  | issue (tag : Bytes)
  | move (m : Move)

/-- What every call leaves behind when numbers are issued from one sequence, and the clock is
moved in between. -/
def session {ρ : Type} [Source ρ Draw] :
    List Step → Sequence → Supply ManualClock → Supply ρ →
      Option (List (Issued ManualClock ρ Number))
  | [], _, _, _ => some []
  | .move m :: steps, q, clock, random =>
    session steps q { clock with state := m.apply clock.state } random
  | .issue tag :: steps, q, clock, random => do
    let issued ← issue tag q clock random
    let log ← session steps issued.sequence issued.clock issued.random
    some (issued :: log)

/-- The clock does not move when it is read, and no step changes that. -/
def StandsStill (steps : List Step) (c : ManualClock) : Prop :=
  c.autoStep = 0 ∧ ∀ nanos, Step.move (.setAutoStep nanos) ∈ steps → nanos = 0

variable {ρ ρ' : Type} [Source ρ Draw] [Source ρ' Draw]

/-- Of all that was drawn in the session nothing has failed. -/
def NeverFails (random : Supply ρ) (log : List (Issued ManualClock ρ Number)) : Prop :=
  ∀ issued ∈ log, ∀ draws, random.Gives draws issued.random → none ∉ draws

/-- The texts are the same up to three bytes at the end. -/
def AgreeBeforeSuffix (text text' : Bytes) : Prop :=
  ∃ head tail tail', text = head ++ tail ∧ text' = head ++ tail' ∧
    tail.length = 3 ∧ tail'.length = 3

theorem StandsStill.of_move {m : Move} {steps : List Step} {c : ManualClock}
    (h : StandsStill (.move m :: steps) c) : StandsStill steps (m.apply c) := by
  refine ⟨?_, fun nanos hmem => h.2 nanos (List.mem_cons_of_mem _ hmem)⟩
  cases m with
  | set => exact h.1
  | advance => exact h.1
  | setAutoStep nanos => exact h.2 nanos (List.mem_cons_self ..)

theorem StandsStill.of_issue {tag : Bytes} {steps : List Step} {c : ManualClock}
    (h : StandsStill (.issue tag :: steps) c) : StandsStill steps c :=
  ⟨h.1, fun nanos hmem => h.2 nanos (List.mem_cons_of_mem _ hmem)⟩

theorem NeverFails.head {random : Supply ρ} {issued : Issued ManualClock ρ Number}
    {log : List (Issued ManualClock ρ Number)} (h : NeverFails random (issued :: log)) :
    NeverFails random [issued] := by
  intro first hmem
  rw [List.mem_singleton.mp hmem]
  exact h issued (List.mem_cons_self ..)

theorem NeverFails.tail {random : Supply ρ} {issued : Issued ManualClock ρ Number}
    {log : List (Issued ManualClock ρ Number)} {draws : List Draw}
    (h : NeverFails random (issued :: log)) (hdraws : random.Gives draws issued.random) :
    NeverFails issued.random log := by
  intro later hmem more hmore hfailed
  exact h later (List.mem_cons_of_mem _ hmem) _ (hdraws.append hmore)
    (List.mem_append_right _ hfailed)

/-! ## One call -/

theorem state_of_gives {clock later : Supply ManualClock} {ts : List Instant}
    (h : clock.Gives ts later) (hstill : clock.state.autoStep = 0) : later.state = clock.state := by
  induction h with
  | nil => rfl
  | @cons state _ _ _ _ _ _ hnext _ ih =>
      obtain ⟨current, step⟩ := state
      obtain rfl : step = 0 := hstill
      cases hnext
      rw [ih rfl]
      simp only [Instant.advance, Int.add_zero]

/-- A turn depends on what the clock shows, and on the sequence. -/
theorem advance_inStep {κ : Type} [Source κ Instant] {q : Sequence} {clock clock' : Supply κ}
    {turn turn' : Turn κ} (hstate : clock.state = clock'.state)
    (h : q.advance clock = some turn) (h' : q.advance clock' = some turn') :
    turn.instant = turn'.instant ∧ turn.sequence = turn'.sequence ∧
      Supply.InStep clock clock' turn.clock turn'.clock := by
  obtain ⟨⟨now, clock₁⟩, hnow, h⟩ := Option.bind_eq_some_iff.mp h
  obtain ⟨⟨now', clock₁'⟩, hnow', h'⟩ := Option.bind_eq_some_iff.mp h'
  obtain ⟨rfl, hfirst⟩ := Supply.seek_inStep hstate hnow hnow'
  simp only at h h'
  by_cases hother : now.period ≠ q.period
  · rw [if_pos hother] at h h'
    cases h
    cases h'
    exact ⟨rfl, rfl, hfirst⟩
  by_cases hleft : q.counter + 1 < periodLimit
  · rw [if_neg hother, if_pos hleft] at h h'
    cases h
    cases h'
    exact ⟨rfl, rfl, hfirst⟩
  · rw [if_neg hother, if_neg hleft] at h h'
    obtain ⟨⟨found, clock₂⟩, hseek, h⟩ := Option.bind_eq_some_iff.mp h
    obtain ⟨⟨found', clock₂'⟩, hseek', h'⟩ := Option.bind_eq_some_iff.mp h'
    obtain ⟨rfl, hmore⟩ := Supply.seek_inStep hfirst.state hseek hseek'
    cases h
    cases h'
    exact ⟨rfl, rfl, hfirst.trans hmore⟩

/-- A suffix reads the clock once for a draw that fails, and under either condition leaves
what the clock shows. -/
theorem clock_of_uniformBelow {bound : Nat} (hbound : 0 < bound) {clock : Supply ManualClock}
    {random : Supply ρ} {drawn : Drawn ManualClock ρ Nat}
    (h : uniformBelow bound clock random = some drawn) :
    ∃ draws, random.Gives draws drawn.random ∧
      drawn.clock.asked = clock.asked + draws.count none ∧
      (clock.state.autoStep = 0 ∨ none ∉ draws → drawn.clock.state = clock.state) := by
  obtain ⟨draws, readings, hdraws, hreadings, hyields⟩ := (uniformBelow_eq_some_iff hbound).mp h
  refine ⟨draws, hdraws, by rw [hreadings.asked_eq, hyields.length_eq], ?_⟩
  rintro (hstill | hnone)
  · exact state_of_gives hreadings hstill
  · have hempty : readings = [] := by
      rw [← List.length_eq_zero_iff, hyields.length_eq, List.count_eq_zero.mpr hnone]
    cases hempty
    cases hreadings
    rfl

/-- Two calls have left the same but for their suffixes, if their sessions began after as many
readings and with these random sources. -/
structure SameTurn (asked asked' : Nat) (random : Supply ρ) (random' : Supply ρ')
    (a : Issued ManualClock ρ Number) (b : Issued ManualClock ρ' Number) : Prop where
  sequence : a.sequence = b.sequence
  text : AgreeBeforeSuffix a.value.render b.value.render
  state : a.clock.state = b.clock.state
  reads : ∃ draws draws', random.Gives draws a.random ∧ random'.Gives draws' b.random ∧
    a.clock.asked + (asked' + draws'.count none) = b.clock.asked + (asked + draws.count none)

theorem SameTurn.trans {asked asked' : Nat} {random : Supply ρ} {random' : Supply ρ'}
    {a c : Issued ManualClock ρ Number} {b d : Issued ManualClock ρ' Number}
    (h : SameTurn asked asked' random random' a b)
    (h' : SameTurn a.clock.asked b.clock.asked a.random b.random c d) :
    SameTurn asked asked' random random' c d := by
  obtain ⟨draws, draws', hdraws, hdraws', hreads⟩ := h.reads
  obtain ⟨more, more', hmore, hmore', hreads'⟩ := h'.reads
  refine ⟨h'.sequence, h'.text, h'.state, _, _, hdraws.append hmore, hdraws'.append hmore', ?_⟩
  rw [List.count_append, List.count_append]
  omega

theorem agreeBeforeSuffix_render {n n' : Number} (htag : n.tag = n'.tag)
    (hinstant : n.instant = n'.instant) (hcount : n.count = n'.count)
    (hsuffix : n.suffix < suffixBound) (hsuffix' : n'.suffix < suffixBound) :
    AgreeBeforeSuffix n.render n'.render := by
  have hthree : ∀ {m : Nat}, m < suffixBound → (Decimal.padded 3 m).length = 3 :=
    fun hm => (Decimal.shows_padded_natCast (by decide) hm).length
  refine ⟨_, _, _, rfl, ?_, hthree hsuffix, hthree hsuffix'⟩
  rw [Number.render, htag, hinstant, hcount]

theorem sameTurn_of_issue {tag : Bytes} {q : Sequence} {clock clock' : Supply ManualClock}
    {random : Supply ρ} {random' : Supply ρ'} {issued : Issued ManualClock ρ Number}
    {issued' : Issued ManualClock ρ' Number} (h : issue tag q clock random = some issued)
    (h' : issue tag q clock' random' = some issued') (hstate : clock.state = clock'.state)
    (hquiet : clock.state.autoStep = 0 ∨
      NeverFails random [issued] ∧ NeverFails random' [issued']) :
    SameTurn clock.asked clock'.asked random random' issued issued' ∧
      (clock.state.autoStep = 0 → issued.clock.state = clock.state) := by
  obtain ⟨turn, drawn, hturn, hdrawn, rfl⟩ := issue_eq_some_iff.mp h
  obtain ⟨turn', drawn', hturn', hdrawn', rfl⟩ := issue_eq_some_iff.mp h'
  obtain ⟨hinstant, hsequence, hstep⟩ := advance_inStep hstate hturn hturn'
  obtain ⟨draws, hdraws, hasked, hkept⟩ := clock_of_uniformBelow (by decide) hdrawn
  obtain ⟨draws', hdraws', hasked', hkept'⟩ := clock_of_uniformBelow (by decide) hdrawn'
  have hstill : clock.state.autoStep = 0 → turn.clock.state = clock.state := by
    obtain ⟨readings, hreadings, _⟩ := advance_eq_some_iff.mp hturn
    exact state_of_gives hreadings
  have hquiet₁ : turn.clock.state.autoStep = 0 ∨ none ∉ draws :=
    hquiet.imp (fun hzero => by rw [hstill hzero, hzero]) fun hnever =>
      hnever.1 _ (List.mem_singleton_self _) draws hdraws
  have hquiet₂ : turn'.clock.state.autoStep = 0 ∨ none ∉ draws' :=
    hquiet.imp (fun hzero => by rw [← hstep.state, hstill hzero, hzero]) fun hnever =>
      hnever.2 _ (List.mem_singleton_self _) draws' hdraws'
  refine ⟨⟨hsequence, ?_, ?_, draws, draws', hdraws, hdraws', ?_⟩, ?_⟩
  · exact agreeBeforeSuffix_render rfl hinstant (congrArg Sequence.counter hsequence)
      (uniformBelow_lt (by decide) hdrawn) (uniformBelow_lt (by decide) hdrawn')
  · show drawn.clock.state = drawn'.clock.state
    rw [hkept hquiet₁, hkept' hquiet₂, hstep.state]
  · have hreads := hstep.asked
    simp only
    omega
  · intro hzero
    exact (hkept hquiet₁).trans (hstill hzero)

/-! ## Whole sessions -/

/-- Sessions stay in step: either the clock stands still or no draw fails. -/
theorem sameTurn_of_session {steps : List Step} :
    ∀ {q : Sequence} {clock clock' : Supply ManualClock} {random : Supply ρ} {random' : Supply ρ'}
      {log : List (Issued ManualClock ρ Number)} {log' : List (Issued ManualClock ρ' Number)},
      session steps q clock random = some log → session steps q clock' random' = some log' →
      clock.state = clock'.state →
      StandsStill steps clock.state ∨ NeverFails random log ∧ NeverFails random' log' →
      List.Forall₂ (SameTurn clock.asked clock'.asked random random') log log' := by
  induction steps with
  | nil =>
      intro q clock clock' random random' log log' h h' _ _
      cases h
      cases h'
      exact .nil
  | cons step steps ih =>
      intro q clock clock' random random' log log' h h' hstate hquiet
      cases step with
      | move m =>
          have hrest := ih h h' (congrArg m.apply hstate) (hquiet.imp_left StandsStill.of_move)
          exact hrest
      | issue tag =>
          obtain ⟨issued, hissue, h⟩ := Option.bind_eq_some_iff.mp h
          obtain ⟨log, hlog, h⟩ := Option.bind_eq_some_iff.mp h
          obtain ⟨issued', hissue', h'⟩ := Option.bind_eq_some_iff.mp h'
          obtain ⟨log', hlog', h'⟩ := Option.bind_eq_some_iff.mp h'
          cases h
          cases h'
          obtain ⟨hsame, hkept⟩ := sameTurn_of_issue hissue hissue' hstate
            (hquiet.imp And.left (And.imp NeverFails.head NeverFails.head))
          obtain ⟨draws, draws', hdraws, hdraws', _⟩ := hsame.reads
          have hlater : StandsStill steps issued.clock.state ∨
              NeverFails issued.random log ∧ NeverFails issued'.random log' :=
            hquiet.imp (fun hstill => by rw [hkept hstill.1]; exact hstill.of_issue)
              (And.imp (fun hnever => hnever.tail hdraws) fun hnever => hnever.tail hdraws')
          rw [← hsame.sequence] at hlog'
          exact .cons hsame ((ih hlog hlog' hsame.state hlater).imp fun _ _ => hsame.trans)

/-- Randomness shows in the suffix only. Of two sessions that differ in their random sources,
the sequence is the same after every call, and the numbers are the same but for their last
three bytes, whatever is drawn and dropped, and whatever fails, if the clock stands still.
On any clock this holds as long as no draw fails, and then the clock was read as often. -/
theorem randomness_shows_in_suffix_only {steps : List Step} {q : Sequence}
    {clock : Supply ManualClock} {random : Supply ρ} {random' : Supply ρ'}
    {log : List (Issued ManualClock ρ Number)} {log' : List (Issued ManualClock ρ' Number)}
    (h : session steps q clock random = some log)
    (h' : session steps q clock random' = some log') :
    (StandsStill steps clock.state →
      List.Forall₂ (fun a b => a.sequence = b.sequence ∧
        AgreeBeforeSuffix a.value.render b.value.render) log log') ∧
    (NeverFails random log → NeverFails random' log' →
      List.Forall₂ (fun a b => a.sequence = b.sequence ∧
        AgreeBeforeSuffix a.value.render b.value.render ∧ a.clock.asked = b.clock.asked)
        log log') := by
  constructor
  · intro hstill
    refine (sameTurn_of_session h h' rfl (.inl hstill)).imp ?_
    exact fun a b hsame => ⟨hsame.sequence, hsame.text⟩
  · intro hnever hnever'
    have hsame := sameTurn_of_session h h' rfl (.inr ⟨hnever, hnever'⟩)
    rw [List.forall₂_iff_zip] at hsame ⊢
    refine ⟨hsame.1, fun {a b} hmem => ?_⟩
    obtain ⟨ha, hb⟩ := List.of_mem_zip hmem
    obtain ⟨hsequence, htext, -, draws, draws', hdraws, hdraws', hreads⟩ := hsame.2 hmem
    rw [List.count_eq_zero.mpr (hnever a ha draws hdraws),
      List.count_eq_zero.mpr (hnever' b hb draws' hdraws')] at hreads
    exact ⟨hsequence, htext, Nat.add_right_cancel hreads⟩

/-- On a clock that is only moved by hand, one session with draws that fail and one with a draw
that is dropped. -/
theorem randomness_shows_in_suffix_only_of_failed_draws :
    ∃ (steps : List Step) (clock : Supply ManualClock) (random random' : Supply (Tape Draw))
      (log log' : List (Issued ManualClock (Tape Draw) Number)),
      session steps {} clock random = some log ∧ session steps {} clock random' = some log' ∧
      log.map (fun issued => issued.value.render) =
        [ascii "A1970010100000000000000", ascii "A1970010100000000001005",
          ascii "B1970010100000010000000"] ∧
      log'.map (fun issued => issued.value.render) =
        [ascii "A1970010100000000000007", ascii "A1970010100000000001008",
          ascii "B1970010100000010000009"] ∧
      List.Forall₂ (fun a b => a.sequence = b.sequence ∧
        AgreeBeforeSuffix a.value.render b.value.render) log log' := by
  let steps : List Step :=
    [.issue (ascii "a"), .issue (ascii "a"), .move (.advance 100000000), .issue (ascii "b")]
  let clock : Supply ManualClock := { state := ⟨⟨0⟩, 0⟩, allowance := 5 }
  let random : Supply (Tape Draw) := { state := ⟨[none, some 5], none⟩, allowance := 3 }
  let random' : Supply (Tape Draw) :=
    { state := ⟨[some 4294967295, some 7, some 8, some 9], none⟩, allowance := 4 }
  obtain ⟨log, hlog⟩ : ∃ log, session steps {} clock random = some log := ⟨_, rfl⟩
  obtain ⟨log', hlog'⟩ : ∃ log', session steps {} clock random' = some log' := ⟨_, rfl⟩
  have hstill : StandsStill steps clock.state := by
    refine ⟨rfl, fun nanos hmem => ?_⟩
    simp [steps] at hmem
  have hagree := (randomness_shows_in_suffix_only hlog hlog').1 hstill
  refine ⟨steps, clock, random, random', log, log', hlog, hlog', ?_, ?_, hagree⟩
  · cases hlog
    decide
  · cases hlog'
    decide

/-- On a clock that moves when it is read, a draw that fails dates the next number later. -/
example :
    let clock : Supply ManualClock := { state := ⟨⟨0⟩, 100000000⟩, allowance := 3 }
    let periods (draws : List Draw) : Option (List Int) :=
      (session [.issue [], .issue []] {} clock (⟨⟨draws, some 0⟩, 0, 2⟩ : Supply (Tape Draw))).map
        fun log => log.map fun issued => issued.sequence.period
    periods [none] = some [0, 2] ∧ periods [some 0] = some [0, 1] := by decide

end Flow

end IdMint
