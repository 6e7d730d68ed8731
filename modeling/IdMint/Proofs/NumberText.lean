import IdMint.Proofs.FlowNumbers

/-!
# The text of a flow number, part by part

How numbers compare was shown on a clock that does not go back. What a number
looks like depends on no such thing: whatever the clock shows, be it before 1970,
and however far the count was pushed from outside, there are 22 digits behind
the tag and each part has its place among them.

Two facts carry this. A turn leaves a count below the limit whatever it found,
so three digits are enough; and the instant of a turn is the last reading that
the turn took, so date, hundredth and period are all of that one reading. The
readings of a call are those of its turn, and at most one more for the suffix.
-/

namespace IdMint

/-! ## Capitals -/

namespace Ascii

/-- What becomes of a byte in capitals: a letter from `a` to `z` moves down by 32, and any
other byte stays. -/
def Capital (b c : UInt8) : Prop :=
  if 97 ≤ b.toNat ∧ b.toNat ≤ 122 then c.toNat + 32 = b.toNat else c = b

theorem capital_upperByte (b : UInt8) : Capital b (upperByte b) := by
  have hletter : 'a'.toUInt8 ≤ b ∧ b ≤ 'z'.toUInt8 ↔ 97 ≤ b.toNat ∧ b.toNat ≤ 122 := by
    rw [UInt8.le_iff_toNat_le, UInt8.le_iff_toNat_le]
    rfl
  rw [Capital]
  by_cases h : 97 ≤ b.toNat ∧ b.toNat ≤ 122
  · have hoffset : caseOffset.toNat = 32 := rfl
    rw [if_pos h, upperByte, if_pos (hletter.mpr h), UInt8.toNat_sub, hoffset]
    omega
  · rw [if_neg h, upperByte, if_neg (mt hletter.mp h)]

theorem forall₂_upper (text : Bytes) : List.Forall₂ Capital text (upper text) :=
  List.forall₂_map_right_iff.mpr (List.forall₂_same.mpr fun b _ => capital_upperByte b)

end Ascii

namespace Flow

/-! ## The readings of a call -/

section

variable {κ ρ : Type} [Source κ Instant] [Source ρ Draw]

/-- The readings of a call that issues a number are those of its turn, and one more if the
suffix is taken from the clock. -/
theorem readings_of_issue {tag : Bytes} {q : Sequence} {clock : Supply κ} {random : Supply ρ}
    {issued : Issued κ ρ Number} {readings : List Instant}
    (hissue : issue tag q clock random = some issued) (htaken : clock.Gives readings issued.clock) :
    ∃ dating rest, readings = dating ++ rest ∧ rest.length ≤ 1 ∧
      q.Turns dating issued.value.instant issued.sequence ∧ issued.value.tag = tag ∧
      issued.value.count = issued.sequence.counter ∧ issued.value.suffix < suffixBound := by
  obtain ⟨turn, drawn, hturn, hdrawn, rfl⟩ := issue_eq_some_iff.mp hissue
  obtain ⟨dating, hdating, hturns⟩ := advance_eq_some_iff.mp hturn
  obtain ⟨draws, rest, -, hrest, hyields⟩ := (uniformBelow_eq_some_iff (by decide)).mp hdrawn
  exact ⟨dating, rest, htaken.unique (hdating.append hrest), hyields.length_le, hturns, rfl, rfl,
    hyields.lt (by decide)⟩

end

/-! ## The digits -/

/-- The text is date and time to the second, the hundredth of the second, the count and the
suffix, in fourteen, two, three and three digits. -/
inductive Digits (time : CivilTime) (hundredth count suffix : Nat) : Bytes → Prop
  | mk {date fraction counted random : Bytes} (htime : time.Written date)
      (hhundredth : Decimal.Shows 2 hundredth fraction) (hcount : Decimal.Shows 3 count counted)
      (hsuffix : Decimal.Shows 3 suffix random) :
      Digits time hundredth count suffix (date ++ fraction ++ counted ++ random)

theorem Digits.shows {time : CivilTime} {hundredth count suffix : Nat} {text : Bytes}
    (h : Digits time hundredth count suffix text) : ∃ n, Decimal.Shows 22 n text := by
  cases h with
  | mk htime hhundredth hcount hsuffix =>
      exact ⟨_, ((htime.shows.append hhundredth).append hcount).append hsuffix⟩

theorem digits_body {n : Number} (hcount : 0 ≤ n.count ∧ n.count < 1000)
    (hsuffix : n.suffix < 1000) :
    Digits n.instant.civil (n.instant.nanos / 10 ^ 6 % 1000 / 10).toNat n.count.toNat n.suffix
      n.body := by
  rw [Number.body, Instant.stamp, Instant.millisOfSecond_eq]
  refine .mk n.instant.written_compact ?_ ?_ ?_
  · exact Decimal.shows_padded (by decide) (by omega) (by omega)
  · exact Decimal.shows_padded (by decide) hcount.1 hcount.2
  · exact Decimal.shows_padded_natCast (by decide) hsuffix

/-! ## The law of the text -/

section

variable {κ ρ : Type} [Source κ Instant] [Source ρ Draw] {tag : Bytes} {q : Sequence}
  {clock : Supply κ} {random : Supply ρ} {issued : Issued κ ρ Number} {readings : List Instant}

/-- A number is its tag in capitals and a body of 22 digits. -/
theorem body_of_issue (hissue : issue tag q clock random = some issued) (hcounter : 0 ≤ q.counter)
    (htaken : clock.Gives readings issued.clock) :
    ∃ dating rest, readings = dating ++ rest ∧ rest.length ≤ 1 ∧
      q.Turns dating issued.value.instant issued.sequence ∧
      issued.value.render = Ascii.upper tag ++ issued.value.body ∧
      Digits issued.value.instant.civil (issued.value.instant.nanos / 10 ^ 6 % 1000 / 10).toNat
        issued.sequence.counter.toNat issued.value.suffix issued.value.body ∧
      issued.value.suffix < 1000 ∧
      0 ≤ issued.sequence.counter ∧ issued.sequence.counter < 1000 := by
  obtain ⟨dating, rest, hsplit, hrest, hturns, htag, hcount, hsuffix⟩ :=
    readings_of_issue hissue htaken
  have hbounds := And.intro (hturns.counter_nonneg hcounter) hturns.counter_lt
  have hdigits := digits_body (hcount ▸ hbounds) hsuffix
  rw [hcount] at hdigits
  exact ⟨dating, rest, hsplit, hrest, hturns, htag ▸ Number.render_eq _, hdigits, hsuffix, hbounds⟩

/-- The period is the tenth of a second that has begun from 1970 on, and before 1970 only on
the border of two of them. Elsewhere it is the next one. -/
theorem period_eq_floor_iff (t : Instant) :
    t.period = t.nanos / 100000000 ↔ 0 ≤ t.nanos ∨ t.nanos % 100000000 = 0 := by
  rw [Instant.period, Instant.periodNanos, Int.tdiv_eq_ediv, ← Int.dvd_iff_emod_eq_zero]
  split
  · next hexact => exact iff_of_true (Int.add_zero _) hexact
  · next hexact => exact iff_of_false (by simp only [Int.sign]; omega) hexact

/-- The layout of a flow number. Whatever the tag, the source of suffixes and the instants
that the clock shows, and however far the count was pushed: behind the tag in capitals
there are exactly 22 digits, and they are the civil time and the hundredth of the last
reading that the turn took, the count after the call, and a suffix. That count has come
back below a thousand, and the period is that of the same reading, its nanoseconds divided
without the fraction. So it is the tenth of a second that has begun, except before 1970, where
that is so on the borders only; and the civil time is that of the reading from the first second
on that 64 bits hold from its beginning. Numbers are the same only if their tags are, in
capitals. -/
theorem flow_number_layout (hissue : issue tag q clock random = some issued)
    (hcounter : 0 ≤ q.counter) (htaken : clock.Gives readings issued.clock)
    (hrange : ∀ t ∈ readings, Decimal.FitsInt64 t.nanos) :
    (∃ dating rest t, readings = dating ++ rest ∧ rest.length ≤ 1 ∧
      q.Turns dating t issued.sequence ∧ issued.sequence.period = t.nanos.tdiv 100000000 ∧
      (issued.sequence.period = t.nanos / 100000000 ↔
        0 ≤ t.nanos ∨ t.nanos % 100000000 = 0) ∧
      ∃ (time : CivilTime) (suffix : Nat) (body : Bytes),
        issued.value.render = Ascii.upper tag ++ body ∧ (∃ n, Decimal.Shows 22 n body) ∧
        time.Valid ∧ (-9223372036 * 10 ^ 9 ≤ t.nanos → time.number = t.nanos / 10 ^ 9) ∧
        suffix < 1000 ∧
        Digits time (t.nanos / 10 ^ 6 % 1000 / 10).toNat issued.sequence.counter.toNat suffix
          body) ∧
    (0 ≤ issued.sequence.counter ∧ issued.sequence.counter ≤ 999) ∧
    List.Forall₂ Ascii.Capital tag (Ascii.upper tag) ∧
    ∀ {κ' ρ' : Type} [Source κ' Instant] [Source ρ' Draw] {tag' : Bytes} {q' : Sequence}
      {clock' : Supply κ'} {random' : Supply ρ'} {issued' : Issued κ' ρ' Number}
      {readings' : List Instant}, issue tag' q' clock' random' = some issued' →
      0 ≤ q'.counter → clock'.Gives readings' issued'.clock →
      issued.value.render = issued'.value.render → Ascii.upper tag = Ascii.upper tag' := by
  obtain ⟨dating, rest, hsplit, hrest, hturns, hrender, hdigits, hsuffix, hlo, hhi⟩ :=
    body_of_issue hissue hcounter htaken
  have hinstant := hrange issued.value.instant (by
    rw [hsplit]
    exact List.mem_append_left _ (List.mem_of_getLast? hturns.getLast?))
  obtain ⟨n, hshows⟩ := hdigits.shows
  refine ⟨⟨dating, rest, _, hsplit, hrest, hturns, hturns.period_eq, ?_, _, _, _, hrender,
    ⟨n, hshows⟩, Instant.valid_civil _, fun hfirst => ?_, hsuffix, hdigits⟩, ⟨hlo, by omega⟩,
    Ascii.forall₂_upper tag, ?_⟩
  · rw [hturns.period_eq]
    exact period_eq_floor_iff _
  · rw [Instant.number_civil]
    exact ((Instant.datable_iff hinstant).mpr hfirst).seconds_eq
  · intro κ' ρ' _ _ tag' q' clock' random' issued' readings' hissue' hcounter' htaken' heq
    obtain ⟨_, _, _, _, _, hrender', hdigits', _⟩ := body_of_issue hissue' hcounter' htaken'
    obtain ⟨n', hshows'⟩ := hdigits'.shows
    rw [hrender, hrender'] at heq
    exact (List.append_inj' heq (hshows.length.trans hshows'.length.symm)).1

/-- A count that was pushed to 5000 in a period before 1970, and no random draw: the turn
waits for the next period, and the suffix is taken from a fourth reading. -/
theorem flow_number_layout_of_pushed_count :
    ∃ (clock : Supply (Tape Instant)) (random : Supply (Tape Draw))
      (issued : Issued (Tape Instant) (Tape Draw) Number) (body : Bytes),
      issue (ascii "po-" ++ [0xe9]) { counter := 5000, period := -2 } clock random = some issued ∧
      clock.Gives [⟨-250000000⟩, ⟨-250000001⟩, ⟨-150000000⟩, ⟨-149999999⟩] issued.clock ∧
      issued.value.render = ascii "PO-" ++ [0xe9] ++ ascii "1969123123595985000001" ∧
      issued.value.render = ascii "PO-" ++ [0xe9] ++ body ∧ (∃ n, Decimal.Shows 22 n body) ∧
      issued.sequence.counter ≤ 999 := by
  let readings : List Instant := [⟨-250000000⟩, ⟨-250000001⟩, ⟨-150000000⟩, ⟨-149999999⟩]
  let clock : Supply (Tape Instant) := { state := ⟨readings, ⟨0⟩⟩, allowance := 4 }
  let random : Supply (Tape Draw) := { state := ⟨[some 4294967295], none⟩, allowance := 2 }
  let issued : Issued (Tape Instant) (Tape Draw) Number :=
    { value := { tag := ascii "po-" ++ [0xe9], instant := ⟨-150000000⟩, count := 0, suffix := 1 }
      sequence := { counter := 0, period := -1 }
      clock := { state := ⟨[], ⟨0⟩⟩, asked := 4, allowance := 0 }
      random := { state := ⟨[], none⟩, asked := 2, allowance := 0 } }
  have hissue : issue (ascii "po-" ++ [0xe9]) { counter := 5000, period := -2 } clock random
      = some issued := rfl
  have htaken : clock.Gives readings issued.clock := Supply.gives_tape ⟨0⟩ readings 0
  obtain ⟨⟨_, _, _, _, _, _, _, _, _, _, body, hrender, hshows, _⟩, hcounter, _⟩ :=
    flow_number_layout hissue (by decide) htaken (by decide)
  exact ⟨clock, random, issued, body, hissue, htaken, by decide, hrender, hshows, hcounter.2⟩

end

/-- The last nanosecond before 1970 is in the tenth of a second that is counted as -1, and the
number that is dated with it leaves 0 behind. -/
theorem last_period_before_1970_is_next :
    ∃ issued : Issued (Tape Instant) (Tape Draw) Number,
      issue (ascii "sf") { counter := 0, period := 5 }
          { state := { upcoming := [], afterwards := ⟨-1⟩ }, allowance := 1 }
          { state := { upcoming := [], afterwards := some 7 }, allowance := 1 } = some issued ∧
      issued.value.render = ascii "SF1969123123595999000007" ∧
      issued.value.instant.nanos = -1 ∧ issued.sequence.period = 0 ∧
      issued.sequence.period ≠ -1 / 100000000 :=
  ⟨_, rfl, by decide, rfl, rfl, by decide⟩

end Flow

end IdMint
