import Mathlib.Data.List.Chain

/-!
# Counting within periods

Ids and flow numbers are kept apart in the same way. Time is cut into periods,
and within a period the issued things are counted from zero; a new period
starts the count again. A `Place` is a period with a count in it, and a list of
places is `Counted` if each is the next of its period or the first of a later
one.

That is a condition on neighbours. What follows from it for the whole list is
the point of this module: places rise, so none is taken twice, and the places of
any one period stand together and carry the counts 0, 1, 2 and so on without a
gap.
-/

namespace IdMint

/-- A place in a count. -/
structure Place where
  period : Int
  index : Int
  deriving DecidableEq, Repr

namespace Place

/-- The second place follows the first: next in its period, or first in a later
one. -/
def Next (a b : Place) : Prop :=
  (b.period = a.period ∧ b.index = a.index + 1) ∨ (a.period < b.period ∧ b.index = 0)

/-- Places in the order of time, and of the count within a period. -/
def Before (a b : Place) : Prop :=
  a.period < b.period ∨ (a.period = b.period ∧ a.index < b.index)

theorem Before.trans {a b c : Place} (hab : Before a b) (hbc : Before b c) : Before a c := by
  simp only [Before] at *
  omega

instance : IsTrans Place Before := ⟨fun _ _ _ => Before.trans⟩

theorem Next.before {a b : Place} (h : Next a b) : Before a b := by
  simp only [Next, Before] at *
  omega

theorem pairwise_before {ps : List Place} (h : ps.IsChain Next) : ps.Pairwise Before :=
  (h.imp fun _ _ => Next.before).pairwise

theorem period_le_of_chain {a : Place} {ps : List Place} (h : (a :: ps).IsChain Next) :
    ∀ p ∈ ps, a.period ≤ p.period := by
  intro p hp
  have hbefore := (List.pairwise_cons.mp (pairwise_before h)).1 p hp
  simp only [Before] at hbefore
  omega

/-- Whatever place the list goes on from, the places of one period stand
together and continue the count. -/
theorem block_of_chain (m : Int) :
    ∀ {ps : List Place} {a : Place}, (a :: ps).IsChain Next →
      ∃ before after k,
        ps = before
          ++ (List.range k).map (fun i => ⟨m, (if a.period = m then a.index + 1 else 0) + i⟩)
          ++ after ∧
        (∀ p ∈ before, p.period < m) ∧ (∀ p ∈ after, m < p.period) := by
  intro ps
  induction ps with
  | nil =>
      intro a _
      exact ⟨[], [], 0, rfl, by simp, by simp⟩
  | cons b rest ih =>
      intro a h
      obtain ⟨hab, hrest⟩ := List.isChain_cons_cons.mp h
      have hle := period_le_of_chain hrest
      obtain ⟨before, after, k, hsplit, hbefore, hafter⟩ := ih hrest
      rcases Int.lt_trichotomy b.period m with hlt | heq | hgt
      · -- The block lies ahead: it starts anew, for `a` as for `b`.
        have hb : ¬ b.period = m := by omega
        have ha : ¬ a.period = m := by
          simp only [Next] at hab
          omega
        rw [if_neg hb] at hsplit
        refine ⟨b :: before, after, k, ?_, ?_, hafter⟩
        · rw [if_neg ha, hsplit]
          rfl
        · intro p hp
          rcases List.mem_cons.mp hp with rfl | hp
          · exact hlt
          · exact hbefore p hp
      · -- `b` is in the block, and nothing of the rest can come before it.
        have hnone : before = [] := by
          apply List.eq_nil_iff_forall_not_mem.mpr
          intro p hp
          have hlow := hbefore p hp
          have hhigh := hle p (by rw [hsplit]; simp [hp])
          omega
        have hindex : b.index = if a.period = m then a.index + 1 else 0 := by
          simp only [Next] at hab
          split <;> omega
        rw [if_pos heq, hnone, List.nil_append] at hsplit
        refine ⟨[], after, k + 1, ?_, by simp, hafter⟩
        rw [hsplit, ← hindex, List.range_succ_eq_map]
        simp only [List.map_cons, List.map_map, List.nil_append, List.cons_append]
        congr 1
        · simp [← heq]
        · congr 1
          apply List.map_congr_left
          intro i _
          simp only [Function.comp, mk.injEq, true_and]
          omega
      · -- The block is over or never was: everything from `b` on is later.
        refine ⟨[], b :: rest, 0, rfl, by simp, ?_⟩
        intro p hp
        rcases List.mem_cons.mp hp with rfl | hp
        · exact hgt
        · have := hle p hp
          omega

/-! ## Counts that start from nothing -/

/-- The places are taken one after the other, and the first of them is the first
of its period: it follows a place that would come before that. -/
def Counted (ps : List Place) : Prop := ∃ start, (⟨start, -1⟩ :: ps : List Place).IsChain Next

theorem counted_of_chain {a : Place} {ps : List Place} (h : (a :: ps).IsChain Next)
    (hlater : ∀ p ∈ ps, a.period < p.period) : Counted ps := by
  cases ps with
  | nil => exact ⟨0, List.isChain_singleton _⟩
  | cons b rest =>
      obtain ⟨hab, hrest⟩ := List.isChain_cons_cons.mp h
      have hb := hlater b (List.mem_cons_self ..)
      refine ⟨a.period, List.isChain_cons_cons.mpr ⟨.inr ⟨hb, ?_⟩, hrest⟩⟩
      simp only [Next] at hab
      omega

theorem Counted.pairwise_before {ps : List Place} (h : Counted ps) : ps.Pairwise Before := by
  obtain ⟨start, hchain⟩ := h
  exact (List.pairwise_cons.mp (Place.pairwise_before hchain)).2

/-- The places of one period stand together and carry the counts from zero on
without a gap; and if counts stay below a limit, a period has no more places than
that. -/
theorem Counted.block {ps : List Place} {limit : Nat} (h : Counted ps)
    (hlimit : ∀ p ∈ ps, p.index < limit) (m : Int) :
    ∃ before after k,
      ps = before ++ (List.range k).map (fun i => ⟨m, i⟩) ++ after ∧
      (∀ p ∈ before, p.period < m) ∧ (∀ p ∈ after, m < p.period) ∧ k ≤ limit := by
  obtain ⟨start, hchain⟩ := h
  obtain ⟨before, after, k, hsplit, hbefore, hafter⟩ := block_of_chain m hchain
  simp only [Int.reduceNeg, Int.add_left_neg, ite_self, Int.zero_add] at hsplit
  refine ⟨before, after, k, hsplit, hbefore, hafter, ?_⟩
  by_contra hk
  have hmem : (⟨m, limit⟩ : Place) ∈ ps := by
    rw [hsplit]
    simp only [List.mem_append, List.mem_map, List.mem_range]
    exact .inl (.inr ⟨limit, by omega, rfl⟩)
  exact Int.lt_irrefl _ (hlimit _ hmem)

/-- Taken out of the list, the places of one period are counted through. -/
theorem Counted.indices {ps : List Place} {limit : Nat} (h : Counted ps)
    (hlimit : ∀ p ∈ ps, p.index < limit) (m : Int) :
    ∃ k, k ≤ limit ∧
      (ps.filter fun p => p.period = m).map Place.index =
        (List.range k).map fun i : Nat => (i : Int) := by
  obtain ⟨before, after, k, hsplit, hbefore, hafter, hk⟩ := h.block hlimit m
  have hnone : ∀ qs : List Place, (∀ p ∈ qs, p.period ≠ m) →
      qs.filter (fun p => p.period = m) = [] := by
    intro qs hqs
    refine List.filter_eq_nil_iff.mpr ?_
    intro p hp
    simpa using hqs p hp
  refine ⟨k, hk, ?_⟩
  rw [hsplit, List.filter_append, List.filter_append,
    hnone before fun p hp => Int.ne_of_lt (hbefore p hp),
    hnone after fun p hp => Int.ne_of_gt (hafter p hp), List.nil_append, List.append_nil,
    List.filter_eq_self.mpr (by simp), List.map_map]
  rfl

end Place

end IdMint
