import IdMint.Proofs.Stamp
import IdMint.Proofs.Turns

/-!
# Flow numbers sort as they were issued

Three clocks of different coarseness are in a flow number: places are counted
in tenths of a second, the time is printed in hundredths, and the readings are
finer than both. They agree on a clock that does not go back. A later
hundredth is a greater number whatever the count; within a hundredth the period
is the same, so the count has gone up. The suffix comes last and never decides.

The tag stands in front of everything else and can therefore not be told from
the digits by looking from the left. From the right it can: the last 22 bytes
are the digits, and these alone keep all numbers apart.
-/

namespace IdMint.Flow

/-! ## The digits of a number -/

/-- What follows the tag. -/
def Number.body (n : Number) : Bytes :=
  n.instant.stamp ++ Decimal.padded 3 n.count ++ Decimal.padded 3 n.suffix

theorem Number.render_eq (n : Number) : n.render = Ascii.upper n.tag ++ n.body := by
  simp only [render, body, Instant.stamp, List.append_assoc]

/-- Instants from 1970 on that 64 bits hold. -/
def InRange (t : Instant) : Prop := 0 ≤ t.nanos ∧ t.nanos < 2 ^ 63

theorem InRange.datable {t : Instant} (h : InRange t) : t.Datable := by
  simp only [InRange] at h
  simp only [Instant.Datable, Decimal.FitsInt64]
  omega

/-- All parts of the number are printed as what they are. -/
structure Number.Fits (n : Number) : Prop where
  instant : InRange n.instant
  count : 0 ≤ n.count ∧ n.count < 1000
  suffix : n.suffix < 1000

/-- The 22 digits, as a number. -/
def Number.bodyDigits (n : Number) : Nat :=
  (n.instant.stampDigits * 10 ^ 3 + n.count.toNat) * 10 ^ 3 + n.suffix

variable {m n : Number}

theorem Number.Fits.shows_count (h : n.Fits) :
    Decimal.Shows 3 n.count.toNat (Decimal.padded 3 n.count) :=
  Decimal.shows_padded (by decide) h.count.1 h.count.2

theorem Number.Fits.shows_suffix (h : n.Fits) :
    Decimal.Shows 3 n.suffix (Decimal.padded 3 n.suffix) :=
  Decimal.shows_padded_natCast (by decide) h.suffix

theorem Number.Fits.shows_body (h : n.Fits) : Decimal.Shows 22 n.bodyDigits n.body :=
  (n.instant.shows_stamp.append h.shows_count).append h.shows_suffix

/-- Numbers of one tag are in the order of their digits. -/
theorem Number.Fits.render_lt_render (hm : m.Fits) (hn : n.Fits)
    (htag : Ascii.upper m.tag = Ascii.upper n.tag) (h : m.bodyDigits < n.bodyDigits) :
    m.render < n.render := by
  rw [render_eq, render_eq, htag]
  exact List.append_left_lt ((hm.shows_body.lt_iff hn.shows_body).mpr h)

/-- The digits of a number can be told from its text, whatever stands in front of them. -/
theorem Number.Fits.bodyDigits_eq (hm : m.Fits) (hn : n.Fits) (h : m.render = n.render) :
    m.bodyDigits = n.bodyDigits := by
  rw [render_eq, render_eq] at h
  have hlength := hm.shows_body.length.trans hn.shows_body.length.symm
  have hbody := hm.shows_body
  rw [(List.append_inj' h hlength).2] at hbody
  exact hbody.unique hn.shows_body

/-- The three bytes of a text that stand before the last three. -/
def printedCount (text : Bytes) : Bytes := (text.drop (text.length - 6)).take 3

theorem Number.Fits.printedCount_render (h : n.Fits) :
    printedCount n.render = Decimal.padded 3 n.count := by
  have hcount := h.shows_count.length
  have hsuffix := h.shows_suffix.length
  rw [printedCount, render_eq, body, List.append_assoc, ← List.append_assoc (Ascii.upper _)]
  generalize Decimal.padded 3 n.count = count at *
  generalize Decimal.padded 3 n.suffix = suffix at *
  have hdrop : (Ascii.upper n.tag ++ n.instant.stamp ++ (count ++ suffix)).length - 6
      = (Ascii.upper n.tag ++ n.instant.stamp).length := by
    simp only [List.length_append, hcount, hsuffix]
    omega
  rw [hdrop, List.drop_left, ← hcount, List.take_left]

/-! ## The order of issue -/

/-- One number was issued before another: for an earlier place, and not at a later
reading. -/
def Number.Earlier (m n : Number) : Prop :=
  m.instant.nanos ≤ n.instant.nanos ∧ Place.Before m.place n.place

theorem period_eq {t : Instant} (h : 0 ≤ t.nanos) : t.period = t.hundredths / 10 := by
  rw [Instant.period, Int.tdiv_eq_ediv_of_nonneg h, Instant.periodNanos, Instant.hundredths]
  omega

/-- The earlier number has the smaller digits: either the printed time has moved on, or
the period is still the same and the count decides. -/
theorem Number.Earlier.bodyDigits_lt (h : m.Earlier n) (hm : m.Fits) (hn : n.Fits) :
    m.bodyDigits < n.bodyDigits := by
  obtain ⟨hnanos, hbefore⟩ := h
  have hcount := hm.count
  have hcount' := hn.count
  have hsuffix := hm.suffix
  simp only [bodyDigits]
  rcases Int.lt_or_le m.instant.hundredths n.instant.hundredths with hlt | hge
  · have hstamp := hm.instant.datable.stampDigits_lt hn.instant.datable hlt
    omega
  · have hsame : m.instant.hundredths = n.instant.hundredths := by
      simp only [Instant.hundredths] at hge ⊢
      omega
    have hperiod : m.instant.period = n.instant.period := by
      rw [period_eq hm.instant.1, period_eq hn.instant.1, hsame]
    have hstamp := hm.instant.datable.stampDigits_congr hn.instant.datable hsame
    simp only [Place.Before, place] at hbefore
    omega

/-! ## Runs from a new sequence -/

section

variable {q' : Sequence} {log : List Entry}

theorem instant_mem_readings (hrun : ({} : Sequence).Serves log q') {e : Entry} (he : e ∈ log) :
    e.number.instant ∈ e.readings :=
  List.mem_of_getLast? (bounds_of_serves hrun (Int.le_refl 0) e he).1

theorem fits_of_serves (hrun : ({} : Sequence).Serves log q')
    (hrange : ∀ t ∈ readings log, InRange t) : ∀ n ∈ numbers log, n.Fits := by
  intro n hn
  obtain ⟨e, he, rfl⟩ := List.mem_map.mp hn
  obtain ⟨-, hnonneg, hcount, hsuffix⟩ := bounds_of_serves hrun (Int.le_refl 0) e he
  have hmem := List.mem_flatMap.mpr ⟨e, he, instant_mem_readings hrun he⟩
  exact ⟨hrange _ hmem, ⟨hnonneg, hcount⟩, hsuffix⟩

/-- A new sequence stands before all periods, so the places taken from it are counted. -/
theorem counted_of_serves (hrun : ({} : Sequence).Serves log q') (hsteady : Steady (readings log))
    (hrange : ∀ t ∈ readings log, InRange t) :
    Place.Counted ((numbers log).map Number.place) := by
  have hlater : ∀ t ∈ readings log, -1 < t.period := by
    intro t ht
    have hnonneg := (hrange t ht).1
    rw [period_eq hnonneg, Instant.hundredths]
    omega
  have hchain := chain_of_serves hrun (fun t ht => Int.le_of_lt (hlater t ht)) hsteady
  refine Place.counted_of_chain hchain ?_
  intro p hp
  obtain ⟨n, hn, rfl⟩ := List.mem_map.mp hp
  obtain ⟨e, he, rfl⟩ := List.mem_map.mp hn
  exact hlater _ (List.mem_flatMap.mpr ⟨e, he, instant_mem_readings hrun he⟩)

theorem pairwise_earlier (hrun : ({} : Sequence).Serves log q') (hsteady : Steady (readings log))
    (hrange : ∀ t ∈ readings log, InRange t) : (numbers log).Pairwise Number.Earlier := by
  have hbefore := (counted_of_serves hrun hsteady hrange).pairwise_before
  have hnanos : (numbers log).Pairwise fun m n => m.instant.nanos ≤ n.instant.nanos := by
    refine List.pairwise_map.mpr ((List.pairwise_flatMap.mp hsteady).2.imp_of_mem ?_)
    intro e e' he he' hle
    exact hle _ (instant_mem_readings hrun he) _ (instant_mem_readings hrun he')
  exact hnanos.and (List.pairwise_map.mp hbefore)

/-- The law of flow numbers. From a new sequence, on a clock that does not go back, and
whatever tags the numbers are issued under and however their suffixes are drawn: numbers
of one tag sort as they were issued, no two numbers at all are the same, and those of one
period are printed with the counts from zero on without a gap, a thousand at most. -/
theorem flow_numbers_issued_in_order (hrun : ({} : Sequence).Serves log q')
    (hsteady : Steady (readings log)) (hrange : ∀ t ∈ readings log, InRange t) :
    (∀ e ∈ log, e.readings.getLast? = some e.number.instant) ∧
    (numbers log).Pairwise (fun m n =>
      Ascii.upper m.tag = Ascii.upper n.tag → m.render < n.render) ∧
    ((numbers log).map Number.render).Nodup ∧
    ∀ p, ∃ k, k ≤ 1000 ∧
      ((numbers log).filter fun n => n.instant.period = p).map (fun n => printedCount n.render) =
        (List.range k).map fun i : Nat => Decimal.padded 3 i := by
  have hfits := fits_of_serves hrun hrange
  have hearlier := pairwise_earlier hrun hsteady hrange
  refine ⟨fun e he => (bounds_of_serves hrun (Int.le_refl 0) e he).1, ?_, ?_, ?_⟩
  · refine hearlier.imp_of_mem ?_
    intro m n hm hn h htag
    have hm := hfits m hm
    have hn := hfits n hn
    exact hm.render_lt_render hn htag (h.bodyDigits_lt hm hn)
  · refine List.pairwise_map.mpr (hearlier.imp_of_mem ?_)
    intro m n hm hn h heq
    have hm := hfits m hm
    have hn := hfits n hn
    exact Nat.ne_of_lt (h.bodyDigits_lt hm hn) (hm.bodyDigits_eq hn heq)
  · intro p
    have hlimit : ∀ q ∈ (numbers log).map Number.place, q.index < (1000 : Nat) := by
      intro q hq
      obtain ⟨n, hn, rfl⟩ := List.mem_map.mp hq
      exact (hfits n hn).count.2
    obtain ⟨k, hk, hindices⟩ := (counted_of_serves hrun hsteady hrange).indices hlimit p
    refine ⟨k, hk, ?_⟩
    have hprinted : ∀ n ∈ (numbers log).filter (fun n => n.instant.period = p),
        printedCount n.render = Decimal.padded 3 n.place.index := by
      intro n hn
      exact (hfits n (List.mem_of_mem_filter hn)).printedCount_render
    rw [List.map_congr_left hprinted]
    rw [List.filter_map, List.map_map] at hindices
    have hcounts := congrArg (List.map (Decimal.padded 3)) hindices
    rw [List.map_map, List.map_map] at hcounts
    exact hcounts

/-- Two tags share the sequence: the second number goes on counting in the period of the
first, and the third opens the next period. -/
theorem flow_numbers_issued_in_order_under_two_tags :
    ∃ (q' : Sequence) (log : List Entry),
      ({} : Sequence).Serves log q' ∧ Steady (readings log) ∧ (∀ t ∈ readings log, InRange t) ∧
        (numbers log).map Number.render =
          [ascii "PO2023111422132095000007", ascii "SO2023111422132095001003",
           ascii "PO2023111422132100000000"] ∧
        ((numbers log).map Number.render).Nodup := by
  let t : Instant := ⟨1700000000950000000⟩
  let later : Instant := ⟨1700000001000000000⟩
  let once : Sequence := { counter := 0, period := 17000000009 }
  let twice : Sequence := { counter := 1, period := 17000000009 }
  let again : Sequence := { counter := 0, period := 17000000010 }
  let log : List Entry :=
    [{ number := { tag := ascii "po", instant := t, count := 0, suffix := 7 }, readings := [t] },
     { number := { tag := ascii "SO", instant := t, count := 1, suffix := 3 }, readings := [t] },
     { number := { tag := ascii "PO", instant := later, count := 0, suffix := 0 },
       readings := [later] }]
  have h₁ : Sequence.Turns {} [t] t once := .opened (by decide)
  have h₂ : once.Turns [t] t twice := .counted (by decide) (by decide)
  have h₃ : twice.Turns [later] later again := .opened (by decide)
  have hrun : ({} : Sequence).Serves log again :=
    .cons (issues_of_turns h₁ _ (by decide)) (.cons (issues_of_turns h₂ _ (by decide))
      (.cons (issues_of_turns h₃ _ (by decide)) .nil))
  have hsteady : Steady (readings log) := by
    simp [Steady, readings, log, t, later]
  have hrange : ∀ u ∈ readings log, InRange u := by
    simp [readings, log, t, later, InRange]
  exact ⟨again, log, hrun, hsteady, hrange, by decide,
    (flow_numbers_issued_in_order hrun hsteady hrange).2.2.1⟩

end

end IdMint.Flow
