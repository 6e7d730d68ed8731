import IdMint.Flow.Number
import IdMint.Proofs.Drawing
import IdMint.Proofs.Places

/-!
# Turns at the shared sequence

Whoever issues a flow number takes a turn at the sequence, and `Turns` says once
what a turn does with the readings it takes: open a period, count on in the one
that is open, or wait for a later one. A number is its turn and a suffix; the
suffix is drawn afterwards and does not come back into the sequence.

A turn asks only whether the period is the last one, not whether it is later.
So it is up to the clock that turns are places in a count: on one that does not
go back, a period other than the last is a later one.
-/

namespace IdMint

namespace Instant

theorem period_mono {t u : Instant} (h : t.nanos ≤ u.nanos) : t.period ≤ u.period :=
  Int.tdiv_le_tdiv (by decide) h

end Instant

namespace Flow

/-! ## One turn -/

/-- From the sequence, a turn that takes the readings is dated with the instant and leaves
the second sequence. -/
inductive Sequence.Turns (q : Sequence) : List Instant → Instant → Sequence → Prop
  | opened {t : Instant} (h : t.period ≠ q.period) :
      Turns q [t] t { counter := 0, period := t.period }
  | counted {t : Instant} (h : t.period = q.period) (hleft : q.counter + 1 < periodLimit) :
      Turns q [t] t { q with counter := q.counter + 1 }
  | waited {t found : Instant} {passed : List Instant} (h : t.period = q.period)
      (hfull : ¬ q.counter + 1 < periodLimit) (hpassed : ∀ u ∈ passed, u.period ≤ t.period)
      (hfound : t.period < found.period) :
      Turns q (t :: (passed ++ [found])) found { counter := 0, period := found.period }

variable {κ ρ : Type} [Source κ Instant] [Source ρ Draw]

/-- What a turn can do, by the readings that it takes. -/
theorem advance_eq_some_iff {q : Sequence} {clock : Supply κ} {turn : Turn κ} :
    q.advance clock = some turn ↔
      ∃ readings, clock.Gives readings turn.clock ∧
        q.Turns readings turn.instant turn.sequence := by
  rw [Sequence.advance]
  constructor
  · intro h
    obtain ⟨⟨now, clock₁⟩, hnow, h⟩ := Option.bind_eq_some_iff.mp h
    have hgives := Supply.next?_eq_some_iff.mp hnow
    simp only at h
    split at h
    · next hother =>
        cases h
        exact ⟨[now], hgives, .opened hother⟩
    · next hother =>
        have hsame := not_not.mp hother
        split at h
        · next hleft =>
            cases h
            exact ⟨[now], hgives, .counted hsame hleft⟩
        · next hleft =>
            obtain ⟨⟨found, clock₂⟩, hseek, h⟩ := Option.bind_eq_some_iff.mp h
            cases h
            obtain ⟨passed, hmore, hpassed, hfound⟩ := Supply.seek_eq_some_iff.mp hseek
            refine ⟨now :: (passed ++ [found]), hgives.append hmore, .waited hsame hleft ?_ ?_⟩
            · intro u hu
              simpa using hpassed u hu
            · simpa using hfound
  · obtain ⟨t, q', clock'⟩ := turn
    rintro ⟨readings, hgives, hturns⟩
    simp only at hgives hturns
    cases hturns with
    | opened hother =>
        rw [Supply.next?_eq_some_iff.mpr hgives]
        exact if_pos hother
    | counted hsame hleft =>
        rw [Supply.next?_eq_some_iff.mpr hgives]
        show (if _ then _ else if _ then _ else _) = _
        rw [if_neg (not_not.mpr hsame), if_pos hleft]
    | @waited now _ passed hsame hfull hpassed hfound =>
        have hsplit : clock.Gives ([now] ++ (passed ++ [t])) clock' := hgives
        obtain ⟨clock₁, hfirst, hmore⟩ := Supply.gives_append_iff.mp hsplit
        have hseek : clock₁.seek (fun u => now.period < u.period) = some (t, clock') := by
          refine Supply.seek_eq_some_iff.mpr ⟨passed, hmore, ?_, by simpa using hfound⟩
          intro u hu
          simpa using hpassed u hu
        rw [Supply.next?_eq_some_iff.mpr hfirst]
        show (if _ then _ else if _ then _ else _) = _
        rw [if_neg (not_not.mpr hsame), if_neg hfull, hseek]
        rfl

/-- A turn is dated with the last reading that it takes. -/
theorem Sequence.Turns.getLast? {q q' : Sequence} {readings : List Instant} {t : Instant}
    (h : q.Turns readings t q') : readings.getLast? = some t := by
  cases h with
  | opened => rfl
  | counted => rfl
  | waited => simp [List.getLast?_cons]

theorem Sequence.Turns.period_eq {q q' : Sequence} {readings : List Instant} {t : Instant}
    (h : q.Turns readings t q') : q'.period = t.period := by
  cases h with
  | opened => rfl
  | counted hsame => exact hsame.symm
  | waited => rfl

theorem Sequence.Turns.counter_lt {q q' : Sequence} {readings : List Instant} {t : Instant}
    (h : q.Turns readings t q') : q'.counter < periodLimit := by
  have hzero : (0 : Int) < periodLimit := by decide
  cases h with
  | opened => exact hzero
  | counted _ hleft => exact hleft
  | waited => exact hzero

theorem Sequence.Turns.counter_nonneg {q q' : Sequence} {readings : List Instant} {t : Instant}
    (h : q.Turns readings t q') (hq : 0 ≤ q.counter) : 0 ≤ q'.counter := by
  cases h with
  | opened => exact Int.le_refl 0
  | counted => exact Int.add_nonneg hq (by decide)
  | waited => exact Int.le_refl 0

/-- The period and the count in it. -/
def Sequence.place (q : Sequence) : Place := { period := q.period, index := q.counter }

/-- Unless the clock goes back behind the last period, a turn takes the next place. -/
theorem Sequence.Turns.next {q q' : Sequence} {readings : List Instant} {t : Instant}
    (h : q.Turns readings t q') (hle : ∀ u ∈ readings, q.period ≤ u.period) :
    Place.Next q.place q'.place := by
  cases h with
  | opened hother =>
      have hlast := hle t (List.mem_singleton.mpr rfl)
      exact .inr ⟨by simp only [place]; omega, rfl⟩
  | counted => exact .inl ⟨rfl, rfl⟩
  | waited hsame _ _ hfound => exact .inr ⟨by simp only [place]; omega, rfl⟩

/-! ## Numbers -/

/-- A number as it is remembered: what was issued, and the readings that its turn took. -/
structure Entry where
  number : Number
  readings : List Instant

/-- A number is issued from the sequence, which becomes the second one. The clock and the
random source may be other ones for every number. -/
inductive Sequence.Issues : Sequence → Entry → Sequence → Prop
  | call {κ ρ : Type} [Source κ Instant] [Source ρ Draw] {q : Sequence} {tag : Bytes}
      {clock : Supply κ} {random : Supply ρ} {turn : Turn κ} {issued : Issued κ ρ Number}
      {readings : List Instant} (hissue : issue tag q clock random = some issued)
      (hturn : q.advance clock = some turn) (htaken : clock.Gives readings turn.clock) :
      Issues q { number := issued.value, readings } issued.sequence

/-- Numbers are issued from the sequence one after the other. -/
inductive Sequence.Serves : Sequence → List Entry → Sequence → Prop
  | nil {q : Sequence} : Serves q [] q
  | cons {q q₁ q' : Sequence} {e : Entry} {log : List Entry} (hissue : q.Issues e q₁)
      (hrest : Serves q₁ log q') : Serves q (e :: log) q'

/-- What issuing can do: the turn dates and counts the number, and the rest of the readings
belongs to the suffix. -/
theorem issue_eq_some_iff {tag : Bytes} {q : Sequence} {clock : Supply κ} {random : Supply ρ}
    {issued : Issued κ ρ Number} :
    issue tag q clock random = some issued ↔
      ∃ turn drawn, q.advance clock = some turn ∧
        uniformBelow suffixBound turn.clock random = some drawn ∧
        issued = { value := { tag, instant := turn.instant, count := turn.sequence.counter,
                              suffix := drawn.value },
                   sequence := turn.sequence, clock := drawn.clock, random := drawn.random } := by
  simp only [issue, Option.bind_eq_bind, Option.bind_eq_some_iff, Option.some.injEq]
  constructor
  · rintro ⟨turn, hturn, drawn, hdrawn, rfl⟩
    exact ⟨turn, drawn, hturn, hdrawn, rfl⟩
  · rintro ⟨turn, drawn, hturn, hdrawn, rfl⟩
    exact ⟨turn, hturn, drawn, hdrawn, rfl⟩

/-- The number of a turn carries its instant and its count. -/
theorem turns_of_issues {q q' : Sequence} {e : Entry} (h : q.Issues e q') :
    q.Turns e.readings e.number.instant q' ∧ e.number.count = q'.counter ∧
      e.number.suffix < suffixBound := by
  cases h with
  | call hissue hturn htaken =>
      obtain ⟨turn', drawn, hturn', hdrawn, rfl⟩ := issue_eq_some_iff.mp hissue
      obtain rfl := Option.some.inj (hturn.symm.trans hturn')
      obtain ⟨readings', htaken', hturns⟩ := advance_eq_some_iff.mp hturn
      rw [← htaken.unique htaken'] at hturns
      exact ⟨hturns, rfl, uniformBelow_lt (by decide) hdrawn⟩

/-- Every turn is that of some number, under any tag and with any suffix: of one issued at
a clock that shows just these readings, and from a source that draws the suffix. -/
theorem issues_of_turns {q q' : Sequence} {readings : List Instant} {t : Instant}
    (h : q.Turns readings t q') (tag : Bytes) {suffix : Nat} (hsuffix : suffix < suffixBound) :
    q.Issues { number := { tag, instant := t, count := q'.counter, suffix }, readings } q' := by
  obtain ⟨clock, clock', htaken⟩ : ∃ clock clock' : Supply (Tape Instant),
      clock.Gives readings clock' := ⟨_, _, Supply.gives_tape ⟨0⟩ readings 0⟩
  obtain ⟨random, random', hdraws⟩ : ∃ random random' : Supply (Tape Draw),
      random.Gives [some suffix.toUInt32] random' := ⟨_, _, Supply.gives_tape none _ 0⟩
  have hword : suffix.toUInt32.toNat = suffix :=
    UInt32.toNat_ofNat_of_lt' (Nat.lt_trans hsuffix (by decide))
  have haccepted : Draw.Yields suffixBound ([] ++ [some suffix.toUInt32]) []
      (suffix.toUInt32.toNat % suffixBound) := by
    refine .accepted (by simp) ?_
    rw [hword]
    exact Nat.lt_trans hsuffix (by decide)
  rw [hword, Nat.mod_eq_of_lt hsuffix] at haccepted
  have hturn : q.advance clock = some { instant := t, sequence := q', clock := clock' } :=
    advance_eq_some_iff.mpr ⟨readings, htaken, h⟩
  have hdrawn : uniformBelow suffixBound clock' random
      = some { value := suffix, clock := clock', random := random' } :=
    (uniformBelow_eq_some_iff (by decide)).mpr ⟨_, _, hdraws, .nil, haccepted⟩
  exact .call (issue_eq_some_iff.mpr ⟨_, _, hturn, hdrawn, rfl⟩) hturn htaken

/-! ## Runs -/

/-- The readings of all turns of a run, in order. -/
def readings (log : List Entry) : List Instant := log.flatMap Entry.readings

/-- The numbers of a run, in the order in which they were issued. -/
def numbers (log : List Entry) : List Number := log.map Entry.number

/-- The clock was never seen to go back. -/
def Steady (ts : List Instant) : Prop := ts.Pairwise fun t u => t.nanos ≤ u.nanos

/-- The place that a number has taken. -/
def Number.place (n : Number) : Place := { period := n.instant.period, index := n.count }

/-- On a clock that does not go back, the numbers of a run take places that follow one
another, starting after the place taken last. -/
theorem chain_of_serves {q q' : Sequence} {log : List Entry} (h : q.Serves log q')
    (hle : ∀ t ∈ readings log, q.period ≤ t.period) (hsteady : Steady (readings log)) :
    (q.place :: (numbers log).map Number.place).IsChain Place.Next := by
  induction h with
  | nil => exact List.isChain_singleton _
  | @cons q q₁ q' e log hissue _ ih =>
      obtain ⟨hturns, hcount, -⟩ := turns_of_issues hissue
      obtain ⟨-, hrest, hacross⟩ := List.pairwise_append.mp hsteady
      have hfirst := hturns.next fun u hu => hle u (List.mem_append_left _ hu)
      have hplace : e.number.place = q₁.place := by
        rw [Number.place, Sequence.place, hcount, hturns.period_eq]
      -- The sequence is now at the last reading of the turn, and no later one is before that.
      have hlast := List.mem_of_getLast? hturns.getLast?
      have hlater : ∀ t ∈ readings log, q₁.period ≤ t.period := by
        intro t ht
        rw [hturns.period_eq]
        exact Instant.period_mono (hacross _ hlast t ht)
      refine List.isChain_cons_cons.mpr ⟨?_, ?_⟩
      · rw [hplace]
        exact hfirst
      · rw [hplace]
        exact ih hlater hrest

/-- Whatever the clock does, a number is dated with the last reading of its turn, and count
and suffix stay below their limits. -/
theorem bounds_of_serves {q q' : Sequence} {log : List Entry} (h : q.Serves log q')
    (hq : 0 ≤ q.counter) :
    ∀ e ∈ log, e.readings.getLast? = some e.number.instant ∧ 0 ≤ e.number.count ∧
      e.number.count < periodLimit ∧ e.number.suffix < suffixBound := by
  induction h with
  | nil => intro e he; cases he
  | cons hissue _ ih =>
      obtain ⟨hturns, hcount, hsuffix⟩ := turns_of_issues hissue
      have hnonneg := hturns.counter_nonneg hq
      intro e he
      rcases List.mem_cons.mp he with rfl | he
      · rw [hcount]
        exact ⟨hturns.getLast?, hnonneg, hturns.counter_lt, hsuffix⟩
      · exact ih hnonneg e he

/-- Numbers under a list of tags, issued at one clock and from one random source, are a run. -/
theorem serves_of_issueAll {tags : List Bytes} {q : Sequence} {clock : Supply κ}
    {random : Supply ρ} {issued : Issued κ ρ (List Number)}
    (h : issueAll tags q clock random = some issued) :
    ∃ log, q.Serves log issued.sequence ∧ issued.value = numbers log ∧
      issued.value.map Number.tag = tags := by
  have hgo : ∀ {tags : List Bytes} {newestFirst : List Number} {q : Sequence} {clock : Supply κ}
      {random : Supply ρ}, issueAll.go newestFirst q clock random tags = some issued →
      ∃ log, q.Serves log issued.sequence ∧ issued.value = newestFirst.reverse ++ numbers log ∧
        (numbers log).map Number.tag = tags := by
    intro tags
    induction tags with
    | nil =>
        intro newestFirst q clock random h
        cases h
        exact ⟨[], .nil, by simp [numbers], rfl⟩
    | cons tag tags ih =>
        intro newestFirst q clock random h
        obtain ⟨first, hfirst, h⟩ := Option.bind_eq_some_iff.mp h
        obtain ⟨log, hserves, hvalue, htags⟩ := ih h
        obtain ⟨turn, drawn, hturn, _, hissued⟩ := issue_eq_some_iff.mp hfirst
        obtain ⟨taken, htaken, _⟩ := advance_eq_some_iff.mp hturn
        refine ⟨_ :: log, .cons (.call hfirst hturn htaken) hserves, ?_, ?_⟩
        · rw [hvalue, List.reverse_cons, List.append_assoc]
          rfl
        · rw [← htags, hissued]
          rfl
  obtain ⟨log, hserves, hvalue, htags⟩ := hgo h
  refine ⟨log, hserves, hvalue, ?_⟩
  rw [hvalue]
  exact htags

end Flow

end IdMint
