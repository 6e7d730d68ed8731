import IdMint.Proofs.FlowNumbers

/-!
# A clock that returns

On a clock that does not go back the counts of a period rise, and numbers are
told apart by them. Here nothing is assumed of the clock. A turn then goes on
counting if the period is the last one, and counts from zero if it is any
other, be it later or earlier.

So the counts of a period rise as long as the numbers of that period stand
together in the run. Once a number of another period has come in between, the
period is counted from zero again, and the first count of the first stay is
given out a second time. That is the whole of it: `counts_rise_iff_together` says
that the counts of a run rise within every period exactly if the run returns to
no period that it has left. The suffix is then all that is left to keep two numbers
apart, and `count_restarts_on_return` is a run in which it does not.
-/

namespace IdMint

namespace Place

/-- The second place is taken right after the first, on whatever clock: next in the same
period, or first in another one. -/
def Follows (a b : Place) : Prop :=
  (b.period = a.period ∧ b.index = a.index + 1) ∨ (b.period ≠ a.period ∧ b.index = 0)

/-- Within every period the later place has the greater index. -/
def Rising (ps : List Place) : Prop :=
  ps.Pairwise fun a b => a.period = b.period → a.index < b.index

/-- Between two places of one period there are places of that period only. -/
def Together (ps : List Place) : Prop :=
  ∀ a b c : Place, [a, b, c].Sublist ps → a.period = c.period → b.period = a.period

theorem Together.tail {a : Place} {ps : List Place} (h : Together (a :: ps)) : Together ps :=
  fun x y z hsub => h x y z (hsub.cons a)

/-- While a period lasts its places rise. -/
theorem index_lt_of_together {c : Place} :
    ∀ {ps : List Place} {a : Place}, (a :: ps).IsChain Follows → Together (a :: ps) →
      c ∈ ps → a.period = c.period → a.index < c.index := by
  intro ps
  induction ps with
  | nil =>
      intro a _ _ hc
      cases hc
  | cons b rest ih =>
      intro a hchain htogether hc hperiod
      obtain ⟨hab, hrest⟩ := List.isChain_cons_cons.mp hchain
      have hsame : b.period = a.period := by
        rcases List.mem_cons.mp hc with rfl | hc
        · exact hperiod.symm
        · exact htogether a b c ((List.singleton_sublist.mpr hc).cons_cons b |>.cons_cons a) hperiod
      have hnext : b.index = a.index + 1 := by
        simp only [Follows] at hab
        omega
      rcases List.mem_cons.mp hc with rfl | hc
      · omega
      · have := ih hrest htogether.tail hc (by omega)
        omega

theorem rising_of_together {ps : List Place} (hchain : ps.IsChain Follows)
    (htogether : Together ps) : Rising ps := by
  induction ps with
  | nil => exact .nil
  | cons a ps ih =>
      refine List.pairwise_cons.mpr ⟨?_, ih hchain.tail htogether.tail⟩
      intro c hc
      exact index_lt_of_together hchain htogether hc

/-- A period that is entered from another one is counted from zero. -/
theorem exists_index_zero {c : Place} :
    ∀ {ps : List Place} {b : Place}, (b :: ps).IsChain Follows → c ∈ ps → b.period ≠ c.period →
      ∃ x ∈ ps, x.period = c.period ∧ x.index = 0 := by
  intro ps
  induction ps with
  | nil =>
      intro b _ hc
      cases hc
  | cons d rest ih =>
      intro b hchain hc hother
      obtain ⟨hbd, hrest⟩ := List.isChain_cons_cons.mp hchain
      by_cases hd : d.period = c.period
      · refine ⟨d, List.mem_cons_self .., hd, ?_⟩
        simp only [Follows] at hbd
        omega
      · have hc : c ∈ rest := by
          rcases List.mem_cons.mp hc with rfl | hc
          · exact absurd rfl hd
          · exact hc
        obtain ⟨x, hx, hperiod, hindex⟩ := ih hrest hc hd
        exact ⟨x, List.mem_cons_of_mem _ hx, hperiod, hindex⟩

/-- The same with the place of the other period further on. -/
theorem exists_index_zero_of_sublist {b c : Place} {ps : List Place}
    (hchain : ps.IsChain Follows) (hsub : [b, c].Sublist ps) (hother : b.period ≠ c.period) :
    ∃ x ∈ ps, x.period = c.period ∧ x.index = 0 := by
  induction ps with
  | nil => cases hsub
  | cons a ps ih =>
      cases hsub with
      | cons _ hsub =>
          obtain ⟨x, hx, hx'⟩ := ih hchain.tail hsub
          exact ⟨x, List.mem_cons_of_mem _ hx, hx'⟩
      | cons_cons _ hsub =>
          obtain ⟨x, hx, hx'⟩ := exists_index_zero hchain (List.singleton_sublist.mp hsub) hother
          exact ⟨x, List.mem_cons_of_mem _ hx, hx'⟩

theorem together_of_rising {ps : List Place} (hchain : ps.IsChain Follows)
    (hnonneg : ∀ p ∈ ps, 0 ≤ p.index) (hrising : Rising ps) : Together ps := by
  induction ps with
  | nil =>
      intro a b c hsub
      cases hsub
  | cons p ps ih =>
      obtain ⟨hp, hrest⟩ := List.pairwise_cons.mp hrising
      intro a b c hsub hperiod
      cases hsub with
      | cons _ hsub =>
          have hnonneg' : ∀ q ∈ ps, 0 ≤ q.index := fun q hq => hnonneg q (List.mem_cons_of_mem _ hq)
          exact ih hchain.tail hnonneg' hrest a b c hsub hperiod
      | cons_cons _ hsub =>
          -- Were there another period in between, the period of `p` would start again at zero.
          by_contra hother
          obtain ⟨x, hx, hxperiod, hxindex⟩ :=
            exists_index_zero_of_sublist hchain.tail hsub (by omega)
          have hlt := hp x hx (by omega)
          have hzero := hnonneg p (List.mem_cons_self ..)
          omega

/-- The places of a run rise within every period exactly if the places of every period
stand together. -/
theorem rising_iff_together {ps : List Place} (hchain : ps.IsChain Follows)
    (hnonneg : ∀ p ∈ ps, 0 ≤ p.index) : Rising ps ↔ Together ps :=
  ⟨together_of_rising hchain hnonneg, rising_of_together hchain⟩

end Place

namespace Flow

/-! ## Turns on any clock -/

theorem Sequence.Turns.follows {q q' : Sequence} {readings : List Instant} {t : Instant}
    (h : q.Turns readings t q') : Place.Follows q.place q'.place := by
  cases h with
  | opened hother => exact .inr ⟨hother, rfl⟩
  | counted => exact .inl ⟨rfl, rfl⟩
  | waited hsame _ _ hfound => exact .inr ⟨by simp only [place]; omega, rfl⟩

theorem follows_of_serves {q q' : Sequence} {log : List Entry} (h : q.Serves log q') :
    (q.place :: (numbers log).map Number.place).IsChain Place.Follows := by
  induction h with
  | nil => exact List.isChain_singleton _
  | @cons q q₁ q' e log hissue _ ih =>
      obtain ⟨hturns, hcount, -⟩ := turns_of_issues hissue
      have hplace : e.number.place = q₁.place := by
        rw [Number.place, Sequence.place, hcount, hturns.period_eq]
      refine List.isChain_cons_cons.mpr ⟨?_, ?_⟩
      · rw [hplace]
        exact hturns.follows
      · rw [hplace]
        exact ih

/-! ## What is printed of a turn -/

/-- Date, time and count as a number shows them: the last 22 bytes without the suffix. -/
def printedTurn (text : Bytes) : Bytes := (text.drop (text.length - 22)).take 19

variable {m n : Number}

theorem Number.Fits.shows_turn (h : n.Fits) :
    Decimal.Shows 19 (n.instant.stampDigits * 10 ^ 3 + n.count.toNat)
      (n.instant.stamp ++ Decimal.padded 3 n.count) :=
  n.instant.shows_stamp.append h.shows_count

theorem Number.Fits.printedTurn_render (h : n.Fits) :
    printedTurn n.render = n.instant.stamp ++ Decimal.padded 3 n.count := by
  have hturn := h.shows_turn.length
  have hbody := h.shows_body.length
  have hdrop : (Ascii.upper n.tag ++ n.body).length - 22 = (Ascii.upper n.tag).length := by
    rw [List.length_append, hbody]
    omega
  rw [printedTurn, render_eq, hdrop, List.drop_left, body, ← hturn, List.take_left]

theorem hundredths_eq_of_stampDigits_eq {t t' : Instant} (ht : t.Datable) (ht' : t'.Datable)
    (h : t.stampDigits = t'.stampDigits) : t.hundredths = t'.hundredths := by
  rcases Int.lt_trichotomy t.hundredths t'.hundredths with hlt | heq | hgt
  · have := ht.stampDigits_lt ht' hlt
    omega
  · exact heq
  · have := ht'.stampDigits_lt ht hgt
    omega

/-- Numbers that show the same turn are of one place. -/
theorem Number.Fits.place_eq (hm : m.Fits) (hn : n.Fits)
    (h : printedTurn m.render = printedTurn n.render) : m.place = n.place := by
  rw [hm.printedTurn_render, hn.printedTurn_render] at h
  have hshows := hm.shows_turn
  rw [h] at hshows
  have hdigits := hshows.unique hn.shows_turn
  have hcount := hm.count
  have hcount' := hn.count
  have hstamp : m.instant.stampDigits = n.instant.stampDigits := by omega
  have hhundredths :=
    hundredths_eq_of_stampDigits_eq hm.instant.datable hn.instant.datable hstamp
  simp only [place, Place.mk.injEq]
  refine ⟨?_, by omega⟩
  rw [period_eq hm.instant.1, period_eq hn.instant.1, hhundredths]

/-! ## The law of any clock -/

section

variable {q' : Sequence} {log : List Entry}

/-- Whatever the clock does, the counts of a run from a new sequence rise within every
period exactly if the run returns to no period that it has left. If it returns to none,
no two numbers show the same date, time and count. -/
theorem counts_rise_iff_together (hrun : ({} : Sequence).Serves log q') :
    (Place.Rising ((numbers log).map Number.place) ↔
      Place.Together ((numbers log).map Number.place)) ∧
    (Place.Together ((numbers log).map Number.place) → (∀ t ∈ readings log, InRange t) →
      ((numbers log).map fun n => printedTurn n.render).Nodup) := by
  have hchain := (follows_of_serves hrun).tail
  have hnonneg : ∀ p ∈ (numbers log).map Number.place, 0 ≤ p.index := by
    intro p hp
    obtain ⟨n, hn, rfl⟩ := List.mem_map.mp hp
    obtain ⟨e, he, rfl⟩ := List.mem_map.mp hn
    exact (bounds_of_serves hrun (Int.le_refl 0) e he).2.1
  refine ⟨Place.rising_iff_together hchain hnonneg, fun htogether hrange => ?_⟩
  have hfits := fits_of_serves hrun hrange
  have hrising := List.pairwise_map.mp (Place.rising_of_together hchain htogether)
  refine List.pairwise_map.mpr (hrising.imp_of_mem ?_)
  intro m n hm hn hlt heq
  have hplace := (hfits m hm).place_eq (hfits n hn) heq
  have hindex := hlt (congrArg Place.period hplace)
  rw [hplace] at hindex
  exact Int.lt_irrefl _ hindex

/-- A clock that goes back once and stays there: two numbers of one period, and before them
one of a later period that the run does not return to. -/
theorem counts_rise_iff_together_one_step_back :
    ∃ (q' : Sequence) (log : List Entry),
      ({} : Sequence).Serves log q' ∧ (∀ t ∈ readings log, InRange t) ∧
        (numbers log).map Number.place
          = [⟨17000000010, 0⟩, ⟨17000000009, 0⟩, ⟨17000000009, 1⟩] ∧
        Place.Together ((numbers log).map Number.place) ∧
        ((numbers log).map fun n => printedTurn n.render).Nodup := by
  let later : Instant := ⟨1700000001000000000⟩
  let t : Instant := ⟨1700000000950000000⟩
  let first : Sequence := { counter := 0, period := 17000000010 }
  let once : Sequence := { counter := 0, period := 17000000009 }
  let twice : Sequence := { counter := 1, period := 17000000009 }
  let log : List Entry :=
    [{ number := { tag := ascii "PO", instant := later, count := 0, suffix := 0 },
       readings := [later] },
     { number := { tag := ascii "po", instant := t, count := 0, suffix := 7 }, readings := [t] },
     { number := { tag := ascii "SO", instant := t, count := 1, suffix := 3 }, readings := [t] }]
  have h₁ : Sequence.Turns {} [later] later first := .opened (by decide)
  have h₂ : first.Turns [t] t once := .opened (by decide)
  have h₃ : once.Turns [t] t twice := .counted (by decide) (by decide)
  have hrun : ({} : Sequence).Serves log twice :=
    .cons (issues_of_turns h₁ _ (by decide)) (.cons (issues_of_turns h₂ _ (by decide))
      (.cons (issues_of_turns h₃ _ (by decide)) .nil))
  have hrange : ∀ u ∈ readings log, InRange u := by
    simp [readings, log, t, later, InRange]
  have hplaces : (numbers log).map Number.place
      = [⟨17000000010, 0⟩, ⟨17000000009, 0⟩, ⟨17000000009, 1⟩] := by decide
  have hrising : Place.Rising ((numbers log).map Number.place) := by
    rw [hplaces]
    simp [Place.Rising]
  obtain ⟨hiff, hprinted⟩ := counts_rise_iff_together hrun
  have htogether := hiff.mp hrising
  exact ⟨twice, log, hrun, hrange, hplaces, htogether, hprinted htogether hrange⟩

/-- A clock that goes on by a tenth of a second and back again: the third number counts from
zero like the first, in the same hundredth of a second, and as the suffix happens to be
drawn the same it is the same number. -/
theorem count_restarts_on_return :
    ∃ issued : Issued (Tape Instant) (Tape Draw) (List Number),
      issueAll [ascii "sf", ascii "sf", ascii "sf"] {}
          { state := { upcoming := [.ofUnixMillis 1700000000000, .ofUnixMillis 1700000000100],
                       afterwards := .ofUnixMillis 1700000000000 }, allowance := 3 }
          { state := { upcoming := [], afterwards := some 7 }, allowance := 3 }
        = some issued ∧
      ¬ Place.Rising (issued.value.map Number.place) ∧
      issued.value.map Number.render =
        [ascii "SF2023111422132000000007", ascii "SF2023111422132010000007",
         ascii "SF2023111422132000000007"] := by
  refine ⟨_, rfl, ?_, by decide⟩
  intro hrising
  have hlt := (List.pairwise_cons.mp hrising).1 ⟨17000000000, 0⟩ (by decide) rfl
  exact Int.lt_irrefl 0 hlt

end

end Flow

end IdMint
