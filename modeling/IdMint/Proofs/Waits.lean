import IdMint.Proofs.Issuing
import IdMint.Proofs.Turns
import Mathlib.Order.Bounds.Basic
import Mathlib.Order.Nat

/-!
# Waits end, and when

Whoever finds a millisecond or a period used up reads the clock until it shows a
later one, and whether that ever happens is up to the clock. On a clock that
moves by a fixed step at every reading it can be said exactly: with a step
forward the wait ends, and it ends with the first reading that is due; with no
step, or a step back, it does not end.

The readings of such a clock are an arithmetic progression, and the
calls were characterised by the readings they take. So nothing is unfolded
here: `isLeast_of_gives` and `gives_of_isLeast` say which readings a wait
passes over, for a reading rounded to whatever unit, and both kinds of call
read their number of readings off that. An allowance that suffices is then an
allowance of that number.
-/

namespace IdMint

/-! ## The readings of a clock that steps -/

namespace ManualClock

/-- What the clock shows at the reading after `i` others. -/
def reading (c : ManualClock) (i : Nat) : Instant := c.current.advance (i * c.autoStep)

theorem reading_zero (c : ManualClock) : c.reading 0 = c.current := by
  simp [reading, Instant.advance]

theorem reading_after_one (c : ManualClock) (i : Nat) :
    ({ c with current := c.current.advance c.autoStep } : ManualClock).reading i
      = c.reading (i + 1) := by
  simp only [reading, Instant.advance, Instant.mk.injEq]
  push_cast
  ring

end ManualClock

variable {clock later : Supply ManualClock}

theorem getElem?_of_gives {as : List Instant} (h : clock.Gives as later) :
    ∀ {i : Nat}, i < as.length → as[i]? = some (clock.state.reading i) := by
  induction h with
  | nil =>
      intro i hi
      exact absurd hi (Nat.not_lt_zero i)
  | @cons state _ _ _ _ _ _ hnext _ ih =>
      cases hnext
      intro i hi
      cases i with
      | zero => rw [ManualClock.reading_zero]; rfl
      | succ i =>
          rw [← ManualClock.reading_after_one]
          exact ih (Nat.lt_of_succ_lt_succ hi)

theorem eq_current_of_gives {t : Instant} {ts : List Instant} (h : clock.Gives (t :: ts) later) :
    t = clock.state.current := by
  cases h with
  | cons hnext => exact (congrArg Prod.fst hnext).symm

theorem gives_readings {n : Nat} (h : n ≤ clock.allowance) :
    ∃ later, clock.Gives ((List.range n).map clock.state.reading) later := by
  induction n generalizing clock with
  | zero => exact ⟨clock, .nil⟩
  | succ n ih =>
      obtain ⟨state, asked, allowance⟩ := clock
      obtain ⟨allowance, rfl⟩ : ∃ m, allowance = m + 1 := ⟨allowance - 1, by simp only at h; omega⟩
      obtain ⟨later, hrest⟩ := @ih
        { state := { state with current := state.current.advance state.autoStep },
          asked := asked + 1, allowance } (Nat.le_of_succ_le_succ h)
      refine ⟨later, ?_⟩
      rw [List.range_succ_eq_map, List.map_cons, List.map_map, ManualClock.reading_zero]
      rw [List.map_congr_left fun i _ => ManualClock.reading_after_one state i] at hrest
      exact .cons rfl hrest

/-! ## Computations that take a number of readings -/

/-- An allowance of `n` readings is enough for a result, and a result has taken just as
many. -/
structure EndsAfter {κ α : Type} [Source κ Instant] (n : Nat) (clock : Supply κ)
    (result : Option α) (later : α → Supply κ) : Prop where
  ends : n ≤ clock.allowance → ∃ a, result = some a
  reads : ∀ a, result = some a → ∃ readings, clock.Gives readings (later a) ∧ readings.length = n

namespace EndsAfter

variable {κ α β : Type} [Source κ Instant] {n m : Nat} {clock : Supply κ} {result : Option α}
  {later : α → Supply κ} {after : β → Supply κ}

theorem done {b : β} (h : after b = clock) : EndsAfter 0 clock (some b) after := by
  refine ⟨fun _ => ⟨b, rfl⟩, fun c hc => ⟨[], ?_, rfl⟩⟩
  cases hc
  rw [h]
  exact .nil

theorem of_next : EndsAfter 1 clock clock.next? Prod.snd := by
  constructor
  · intro hallowed
    obtain ⟨t, later, hnext⟩ := Supply.exists_next? hallowed
    exact ⟨_, hnext⟩
  · intro a ha
    exact ⟨[a.1], Supply.next?_eq_some_iff.mp ha, rfl⟩

protected theorem bind {f : α → Option β} (h : EndsAfter n clock result later)
    (hf : ∀ a, EndsAfter m (later a) (f a) after) :
    EndsAfter (n + m) clock (result.bind f) after := by
  constructor
  · intro hallowed
    obtain ⟨a, ha⟩ := h.ends (by omega)
    obtain ⟨readings, hgives, hlength⟩ := h.reads a ha
    have hleft := hgives.allowance_eq
    obtain ⟨b, hb⟩ := (hf a).ends (by omega)
    exact ⟨b, Option.bind_eq_some_iff.mpr ⟨a, ha, hb⟩⟩
  · intro b hb
    obtain ⟨a, ha, hb⟩ := Option.bind_eq_some_iff.mp hb
    obtain ⟨readings, hgives, hlength⟩ := h.reads a ha
    obtain ⟨more, hmore, hlength'⟩ := (hf a).reads b hb
    exact ⟨_, hgives.append hmore, by rw [List.length_append, hlength, hlength']⟩

end EndsAfter

/-! ## Which readings a wait passes over -/

section

variable {f : Instant → Int} {bound : Int}

/-- The readings after the first at which a wait is due to end. -/
def Due (c : ManualClock) (f : Instant → Int) (bound : Int) : Set Nat :=
  {k | 1 ≤ k ∧ bound < f (c.reading k)}

theorem isLeast_of_gives {t found : Instant} {passed : List Instant}
    (h : clock.Gives (t :: (passed ++ [found])) later) (hpassed : ∀ u ∈ passed, f u ≤ bound)
    (hfound : bound < f found) : IsLeast (Due clock.state f bound) (passed.length + 1) := by
  constructor
  · have hlast := getElem?_of_gives (i := passed.length + 1) h (by simp)
    rw [List.getElem?_cons_succ, List.getElem?_concat_length] at hlast
    cases hlast
    exact ⟨Nat.le_add_left .., hfound⟩
  · intro k hk
    by_contra hlt
    obtain ⟨k, rfl⟩ : ∃ j, k = j + 1 := ⟨k - 1, by have := hk.1; omega⟩
    have hread := getElem?_of_gives (i := k + 1) h (by simp; omega)
    rw [List.getElem?_cons_succ, List.getElem?_append_left (by omega)] at hread
    have hle := hpassed _ (List.mem_of_getElem? hread)
    have hgt := hk.2
    omega

theorem gives_of_isLeast {k : Nat} (hk : IsLeast (Due clock.state f bound) k)
    (hallowed : 1 + k ≤ clock.allowance) :
    ∃ passed later, clock.Gives (clock.state.current :: (passed ++ [clock.state.reading k])) later ∧
      ∀ u ∈ passed, f u ≤ bound := by
  obtain ⟨⟨hpos, -⟩, hleast⟩ := hk
  obtain ⟨k, rfl⟩ : ∃ j, k = j + 1 := ⟨k - 1, by omega⟩
  obtain ⟨later, hgives⟩ := gives_readings hallowed
  rw [Nat.add_comm, List.range_succ_eq_map, List.range_succ, List.map_cons, List.map_map,
    List.map_append, ManualClock.reading_zero] at hgives
  refine ⟨_, later, hgives, ?_⟩
  intro u hu
  obtain ⟨i, hi, rfl⟩ := List.mem_map.mp hu
  by_contra hgt
  have := hleast ⟨Nat.le_add_left .., Int.not_le.mp hgt⟩
  have := List.mem_range.mp hi
  omega

theorem exists_isLeast {grain : Int} (hgrain : 0 < grain) (hf : ∀ t, f t = t.nanos.tdiv grain)
    {c : ManualClock} (hstep : 0 < c.autoStep) : ∃ k, IsLeast (Due c f bound) k := by
  have hdue : (Due c f bound).Nonempty := by
    -- A step is a nanosecond or more, so there are enough of them to the end of the bound.
    let target := (max bound 0 + 1) * grain
    refine ⟨(target - c.current.nanos).toNat + 1, Nat.le_add_left .., ?_⟩
    have hsteps : target ≤ (c.reading ((target - c.current.nanos).toNat + 1)).nanos := by
      have hle : (((target - c.current.nanos).toNat + 1 : Nat) : Int)
          ≤ ((target - c.current.nanos).toNat + 1 : Nat) * c.autoStep :=
        le_mul_of_one_le_right (Int.natCast_nonneg _) hstep
      simp only [ManualClock.reading, Instant.advance]
      omega
    have htarget : 0 ≤ target := Int.mul_nonneg (by omega) (Int.le_of_lt hgrain)
    rw [hf, Int.tdiv_eq_ediv_of_nonneg (Int.le_trans htarget hsteps)]
    have hle : max bound 0 + 1 ≤ _ := Int.le_ediv_of_mul_le hgrain hsteps
    omega
  classical
  exact ⟨_, hdue.isLeast_natFind⟩

theorem not_due {grain : Int} (hgrain : 0 < grain) (hf : ∀ t, f t = t.nanos.tdiv grain)
    {c : ManualClock} (hstep : c.autoStep ≤ 0) (hbound : f c.current ≤ bound) (k : Nat) :
    k ∉ Due c f bound := by
  intro hk
  have hback : (c.reading k).nanos ≤ c.current.nanos := by
    have := Int.mul_nonpos_of_nonneg_of_nonpos (Int.natCast_nonneg k) hstep
    simp only [ManualClock.reading, Instant.advance]
    omega
  have hlater := hk.2
  rw [hf] at hbound hlater
  have := Int.tdiv_le_tdiv hgrain hback
  omega

/-! ## Calls that poll -/

/-- The readings of a call that polls: one, or if the call finds its unit of time spent, as
many as it takes to get past it. -/
inductive Polled (spent : Instant → Prop) (f : Instant → Int) (bound : Int) : List Instant → Prop
  | once {t : Instant} (h : ¬ spent t) : Polled spent f bound [t]
  | waited {t found : Instant} {passed : List Instant} (h : spent t)
      (hpassed : ∀ u ∈ passed, f u ≤ bound) (hfound : bound < f found) :
      Polled spent f bound (t :: (passed ++ [found]))

/-- The computation reads the clock, and has a result exactly if the clock gives readings of
this kind. -/
structure Asks {α : Type} (clock : Supply ManualClock) (result : Option α)
    (later : α → Supply ManualClock) (kind : List Instant → Prop) : Prop where
  given : ∀ a, result = some a → ∃ readings, clock.Gives readings (later a) ∧ kind readings
  ends : ∀ readings clock', clock.Gives readings clock' → kind readings → ∃ a, result = some a

variable {α : Type} {result : Option α} {after : α → Supply ManualClock}
  {spent : Instant → Prop}

theorem Asks.endsAfter_one (h : Asks clock result after (Polled spent f bound))
    (hspent : ¬ spent clock.state.current) : EndsAfter 1 clock result after := by
  constructor
  · intro hallowed
    obtain ⟨later, hgives⟩ := gives_readings hallowed
    rw [List.range_one, List.map_singleton, ManualClock.reading_zero] at hgives
    exact h.ends _ _ hgives (.once hspent)
  · intro a ha
    obtain ⟨readings, hgives, hpolled⟩ := h.given a ha
    refine ⟨readings, hgives, ?_⟩
    cases hpolled with
    | once => rfl
    | waited hspent' =>
        cases eq_current_of_gives hgives
        exact absurd hspent' hspent

/-- A call that has to wait has read as long as nothing was due. -/
theorem Asks.isLeast (h : Asks clock result after (Polled spent f bound))
    (hspent : spent clock.state.current) {a : α} (ha : result = some a) :
    ∃ readings k, clock.Gives readings (after a) ∧ readings.length = 1 + k ∧
      IsLeast (Due clock.state f bound) k := by
  obtain ⟨readings, hgives, hpolled⟩ := h.given a ha
  cases hpolled with
  | once hfresh =>
      cases eq_current_of_gives hgives
      exact absurd hspent hfresh
  | @waited _ _ passed _ hpassed hfound =>
      refine ⟨_, passed.length + 1, hgives, ?_, isLeast_of_gives hgives hpassed hfound⟩
      rw [List.length_cons, List.length_append, List.length_singleton, Nat.add_comm 1]

theorem Asks.endsAfter (h : Asks clock result after (Polled spent f bound))
    (hspent : spent clock.state.current) {k : Nat} (hk : IsLeast (Due clock.state f bound) k) :
    EndsAfter (1 + k) clock result after := by
  constructor
  · intro hallowed
    obtain ⟨passed, later, hgives, hpassed⟩ := gives_of_isLeast hk hallowed
    exact h.ends _ _ hgives (.waited hspent hpassed hk.1.2)
  · intro a ha
    obtain ⟨readings, k', hgives, hlength, hk'⟩ := h.isLeast hspent ha
    exact ⟨readings, hgives, by rw [hlength, hk.unique hk']⟩

theorem Asks.eq_none (h : Asks clock result after (Polled spent f bound))
    (hspent : spent clock.state.current) (hnever : ∀ k, k ∉ Due clock.state f bound) :
    result = none := by
  refine Option.eq_none_iff_forall_ne_some.mpr fun a ha => ?_
  obtain ⟨_, k, _, _, hk⟩ := h.isLeast hspent ha
  exact hnever k hk.1

/-- When a call that polls comes to its end, on a clock that goes on, stands still or goes
back. -/
theorem Asks.waits (h : Asks clock result after (Polled spent f bound)) {grain : Int}
    (hgrain : 0 < grain) (hf : ∀ t, f t = t.nanos.tdiv grain)
    (hbound : ∀ t, spent t → f t = bound) :
    (¬ spent clock.state.current → EndsAfter 1 clock result after) ∧
    (spent clock.state.current → 0 < clock.state.autoStep →
      ∃ k, IsLeast (Due clock.state f bound) k ∧ EndsAfter (1 + k) clock result after) ∧
    (spent clock.state.current → clock.state.autoStep ≤ 0 → result = none) := by
  refine ⟨h.endsAfter_one, ?_, ?_⟩
  · intro hspent hstep
    obtain ⟨k, hk⟩ := exists_isLeast hgrain hf hstep
    exact ⟨k, hk, h.endsAfter hspent hk⟩
  · intro hspent hstep
    exact h.eq_none hspent (not_due hgrain hf hstep (Int.le_of_eq (hbound _ hspent)))

end

/-! ## Ids -/

namespace Snowflake

/-- The reading is in the millisecond of the slot filled last, and that slot was the last one
of the millisecond. -/
def Generator.Spent (g : Generator) (t : Instant) : Prop :=
  t.unixMillis = g.last.millis ∧ g.last.sequence.val = 4095

theorem add_one_eq_zero_iff {s : Fin 4096} : s + 1 = 0 ↔ s.val = 4095 := by
  have hlt := s.isLt
  rw [Fin.ext_iff, Fin.val_add, Fin.val_one, Fin.val_zero]
  omega

theorem Generator.Answers.polled {g g' : Generator} {readings : List Instant}
    {answer : Except ClockError Id} (h : g.Answers readings answer g') :
    Polled g.Spent Instant.unixMillis g.last.millis readings := by
  cases h with
  | refused hbehind => exact .once fun hspent => Int.ne_of_lt hbehind hspent.1
  | issued hreach =>
      cases hreach with
      | later hlater => exact .once fun hspent => Int.ne_of_gt hlater hspent.1
      | same _ hleft => exact .once fun hspent => hleft (add_one_eq_zero_iff.mpr hspent.2)
      | waited hsame hfull hpassed hfound =>
          exact .waited ⟨hsame, add_one_eq_zero_iff.mp hfull⟩ hpassed hfound

theorem Generator.exists_answers {g : Generator} {readings : List Instant}
    (h : Polled g.Spent Instant.unixMillis g.last.millis readings) :
    ∃ answer g', g.Answers readings answer g' := by
  cases h with
  | @once t hfresh =>
      rcases Int.lt_trichotomy t.unixMillis g.last.millis with hbehind | hsame | hlater
      · exact ⟨_, _, .refused hbehind⟩
      · refine ⟨_, _, .issued (.same hsame ?_)⟩
        intro hfull
        exact hfresh ⟨hsame, add_one_eq_zero_iff.mp hfull⟩
      · exact ⟨_, _, .issued (.later hlater)⟩
  | waited hspent hpassed hfound =>
      exact ⟨_, _, .issued (.waited hspent.1 (add_one_eq_zero_iff.mpr hspent.2) hpassed hfound)⟩

theorem asks_next (g : Generator) (clock : Supply ManualClock) :
    Asks clock (g.next clock) Call.clock (Polled g.Spent Instant.unixMillis g.last.millis) := by
  constructor
  · intro call hcall
    obtain ⟨readings, hgives, hanswers⟩ := next_eq_some_iff.mp hcall
    exact ⟨readings, hgives, hanswers.polled⟩
  · intro readings clock' hgives hpolled
    obtain ⟨result, generator, hanswers⟩ := Generator.exists_answers hpolled
    exact ⟨{ result, generator, clock := clock' },
      next_eq_some_iff.mpr ⟨readings, hgives, hanswers⟩⟩

end Snowflake

/-! ## Flow numbers -/

namespace Flow

/-- The reading is in the period of the sequence, and no count of the period is left. -/
def Sequence.Spent (q : Sequence) (t : Instant) : Prop := t.period = q.period ∧ 999 ≤ q.counter

theorem Sequence.Turns.polled {q q' : Sequence} {readings : List Instant} {t : Instant}
    (h : q.Turns readings t q') : Polled q.Spent Instant.period q.period readings := by
  cases h with
  | opened hother => exact .once fun hspent => hother hspent.1
  | counted _ hleft =>
      refine .once fun hspent => ?_
      have := hspent.2
      simp only [periodLimit] at hleft
      omega
  | waited hsame hfull hpassed hfound =>
      rw [hsame] at hpassed hfound
      exact .waited ⟨hsame, by simp only [periodLimit] at hfull; omega⟩ hpassed hfound

theorem Sequence.exists_turns {q : Sequence} {readings : List Instant}
    (h : Polled q.Spent Instant.period q.period readings) : ∃ t q', q.Turns readings t q' := by
  cases h with
  | @once t hfresh =>
      by_cases hsame : t.period = q.period
      · refine ⟨_, _, .counted hsame ?_⟩
        by_contra hfull
        exact hfresh ⟨hsame, by simp only [periodLimit] at hfull; omega⟩
      · exact ⟨_, _, .opened hsame⟩
  | waited hspent hpassed hfound =>
      rw [← hspent.1] at hpassed hfound
      refine ⟨_, _, .waited hspent.1 ?_ hpassed hfound⟩
      have := hspent.2
      simp only [periodLimit]
      omega

theorem asks_advance (q : Sequence) (clock : Supply ManualClock) :
    Asks clock (q.advance clock) Turn.clock (Polled q.Spent Instant.period q.period) := by
  constructor
  · intro turn hturn
    obtain ⟨readings, hgives, hturns⟩ := advance_eq_some_iff.mp hturn
    exact ⟨readings, hgives, hturns.polled⟩
  · intro readings clock' hgives hpolled
    obtain ⟨instant, sequence, hturns⟩ := Sequence.exists_turns hpolled
    exact ⟨{ instant, sequence, clock := clock' },
      advance_eq_some_iff.mpr ⟨readings, hgives, hturns⟩⟩

/-- The turn takes `n` readings, and they decide what becomes of the sequence. The suffix
takes one more if the draw that ends the search for it has failed, and none otherwise. -/
structure Sequence.IssuesAfter (q : Sequence) (n : Nat) (clock : Supply ManualClock) : Prop where
  turn : EndsAfter n clock (q.advance clock) Turn.clock
  number : ∀ {ρ : Type} [Source ρ Draw] (tag : Bytes) {random random' : Supply ρ} {draw : Draw},
    random.seek (Draw.settles suffixBound) = some (draw, random') →
    EndsAfter (n + if draw = none then 1 else 0) clock (issue tag q clock random) Issued.clock ∧
      ∀ issued, issue tag q clock random = some issued →
        ∃ turn, q.advance clock = some turn ∧ issued.sequence = turn.sequence

theorem endsAfter_uniformBelow {κ ρ : Type} [Source κ Instant] [Source ρ Draw] {bound : Nat}
    (hbound : 0 < bound) (clock : Supply κ) {random random' : Supply ρ} {draw : Draw}
    (h : random.seek (Draw.settles bound) = some (draw, random')) :
    EndsAfter (if draw = none then 1 else 0) clock (uniformBelow bound clock random)
      Drawn.clock := by
  rw [uniformBelow, if_neg (Nat.pos_iff_ne_zero.mp hbound), h]
  cases draw with
  | some word => exact .done rfl
  | none =>
      show EndsAfter 1 clock (clock.next?.bind _) Drawn.clock
      refine EndsAfter.bind (m := 0) EndsAfter.of_next ?_
      exact fun read => .done rfl

theorem issuesAfter {q : Sequence} {n : Nat} {clock : Supply ManualClock}
    (h : EndsAfter n clock (q.advance clock) Turn.clock) : q.IssuesAfter n clock := by
  refine ⟨h, fun tag random random' draw hdraw => ⟨?_, ?_⟩⟩
  · refine h.bind fun turn => ?_
    refine EndsAfter.bind (m := 0) (endsAfter_uniformBelow (by decide) turn.clock hdraw) ?_
    exact fun drawn => .done rfl
  · intro issued hissue
    obtain ⟨turn, drawn, hturn, _, rfl⟩ := issue_eq_some_iff.mp hissue
    exact ⟨turn, hturn, rfl⟩

theorem issue_eq_none {ρ : Type} [Source ρ Draw] {q : Sequence} {clock : Supply ManualClock}
    (h : q.advance clock = none) (tag : Bytes) (random : Supply ρ) :
    issue tag q clock random = none := by
  rw [issue, h]
  rfl

end Flow

/-! ## When waits end -/

end IdMint
