import IdMint.Proofs.Issuing
import Mathlib.Data.List.Nodup
import Mathlib.Logic.Function.Basic

/-!
# Generators at different addresses do not collide

Several generators work at one clock, and their calls come in any order. They
share nothing but the clock, and the clock decides nothing: which reading goes
to which call, and whether one generator reads while another one waits, is left
open here, so every way of dealing the readings out is covered.

Two ids are kept apart by one of two things. At one address the later id is of
a later place, which is the order that a generator keeps to by itself; at two
addresses the ids tell different addresses. Both are read off the slots, and
the short forms follow because a short form is a numeral.
-/

namespace IdMint.Snowflake

variable {ι : Type} [DecidableEq ι]

/-- Generators answer calls in turn, at every step any one of them, and become the second
ones. The log says which generator answered. -/
inductive Interleaves : (ι → Generator) → List (ι × Entry) → (ι → Generator) → Prop
  | nil {gs : ι → Generator} : Interleaves gs [] gs
  | cons {gs gs' : ι → Generator} {i : ι} {e : Entry} {g : Generator} {log : List (ι × Entry)}
      (hcall : (gs i).Handles e g) (hrest : Interleaves (Function.update gs i g) log gs') :
      Interleaves gs ((i, e) :: log) gs'

/-- A call that hands out an id does so for a slot after the one filled last. -/
theorem slot_of_id? {g g' : Generator} {e : Entry} {id : Id} (h : g.Handles e g')
    (hw : ∀ t ∈ e.readings, InWindow t.unixMillis) (hid : e.id? = some id) :
    ∃ slot : Slot, Place.Before g.last.place slot.place ∧ InWindow slot.millis ∧
      g' = { g with last := slot } ∧ id = slot.id g.address := by
  rcases handles_in_window h hw with ⟨_, hnone, _⟩ | ⟨slot, hnext, hslot, hg, hsome, _⟩
  · rw [hid] at hnone
    cases hnone
  · rw [hid] at hsome
    exact ⟨slot, hnext.before, hslot, hg, Option.some.inj hsome⟩

/-- A call moves its generator on, and neither moves it back nor to another address. -/
theorem Generator.Handles.before_or_eq {g g' : Generator} {e : Entry} (h : g.Handles e g') :
    g'.address = g.address ∧
      ∀ p, Place.Before g'.last.place p → Place.Before g.last.place p := by
  rcases handles_cases h with ⟨rfl, _⟩ | ⟨slot, _, hreach, rfl, _⟩
  · exact ⟨rfl, fun _ hp => hp⟩
  · exact ⟨rfl, fun _ hp => hreach.next.before.trans hp⟩

/-- Whatever the others do in between, the ids that a generator will hand out are of slots
after the one that it filled last. -/
theorem slot_of_mem_interleaving {gs gs' : ι → Generator} {log : List (ι × Entry)}
    (h : Interleaves gs log gs') (hw : WithinWindow (log.map Prod.snd)) :
    ∀ x ∈ log, ∀ id, x.2.id? = some id →
      ∃ slot : Slot, Place.Before (gs x.1).last.place slot.place ∧ InWindow slot.millis ∧
        id = slot.id (gs x.1).address := by
  induction h with
  | nil => intro x hx; cases hx
  | @cons gs gs' i e g log hcall _ ih =>
      intro x hx id hid
      rcases List.mem_cons.mp hx with rfl | hx
      · obtain ⟨slot, hbefore, hslot, _, rfl⟩ :=
          slot_of_id? hcall (hw e (by simp)) hid
        exact ⟨slot, hbefore, hslot, rfl⟩
      · obtain ⟨slot, hbefore, hslot, rfl⟩ :=
          ih (fun e' he' => hw e' (List.mem_cons_of_mem _ he')) x hx id hid
        by_cases hi : x.1 = i
        · obtain ⟨haddress, hon⟩ := hcall.before_or_eq
          rw [hi, Function.update_self] at hbefore ⊢
          exact ⟨slot, hon _ hbefore, hslot, by rw [haddress]⟩
        · rw [Function.update_of_ne hi] at hbefore ⊢
          exact ⟨slot, hbefore, hslot, rfl⟩

/-- Ids of slots at different addresses are different, since an id tells its address. -/
theorem Slot.id_ne_id {s s' : Slot} {address address' : Address} (h : InWindow s.millis)
    (h' : InWindow s'.millis) (hne : address ≠ address') : s.id address ≠ s'.id address' := by
  intro heq
  have hfields : s.fields address = s'.fields address' := by
    rw [← Slot.decompose_id address h, ← Slot.decompose_id address' h', heq]
  obtain ⟨w, d⟩ := address
  obtain ⟨w', d'⟩ := address'
  simp only [Slot.fields, Fields.mk.injEq, Int.natCast_inj] at hfields
  exact hne (by rw [Fin.ext hfields.2.1, Fin.ext hfields.2.2.1])

theorem address_update {gs : ι → Generator} {i : ι} {e : Entry} {g : Generator}
    (h : (gs i).Handles e g) (j : ι) : (Function.update gs i g j).address = (gs j).address := by
  by_cases hj : j = i
  · rw [hj, Function.update_self, h.before_or_eq.1]
  · rw [Function.update_of_ne hj]

/-- Two calls hand out different ids: the later one a later id of its address, or one of
another address. -/
theorem pairwise_id_ne {gs gs' : ι → Generator} {log : List (ι × Entry)}
    (h : Interleaves gs log gs') (hw : WithinWindow (log.map Prod.snd))
    (hdiffer : ∀ i j, i ≠ j → (gs i).address ≠ (gs j).address) :
    log.Pairwise fun x y =>
      ∀ id, x.2.id? = some id → ∀ id', y.2.id? = some id' → id ≠ id' := by
  induction h with
  | nil => exact .nil
  | @cons gs gs' i e g log hcall hrest ih =>
      have hwrest : WithinWindow (log.map Prod.snd) :=
        fun e' he' => hw e' (List.mem_cons_of_mem _ he')
      refine List.pairwise_cons.mpr ⟨?_, ih hwrest ?_⟩
      · intro y hy id hid id' hid'
        obtain ⟨slot, _, hslot, rfl, rfl⟩ := slot_of_id? hcall (hw e (by simp)) hid
        obtain ⟨slot', hbefore, hslot', rfl⟩ :=
          slot_of_mem_interleaving hrest hwrest y hy id' hid'
        rw [address_update hcall]
        by_cases hi : y.1 = i
        · rw [hi] at hbefore ⊢
          rw [Function.update_self] at hbefore
          have hlt := Slot.id_lt_id (gs i).address hslot hslot' hbefore
          intro heq
          rw [heq] at hlt
          exact Int64.lt_irrefl hlt
        · exact Slot.id_ne_id hslot hslot' (hdiffer i y.1 (Ne.symm hi))
      · intro j k hjk
        rw [address_update hcall, address_update hcall]
        exact hdiffer j k hjk

theorem handles_of_mem_interleaving {gs gs' : ι → Generator} {log : List (ι × Entry)}
    (h : Interleaves gs log gs') : ∀ x ∈ log, ∃ g g' : Generator, g.Handles x.2 g' := by
  induction h with
  | nil => intro x hx; cases hx
  | cons hcall _ ih =>
      intro x hx
      rcases List.mem_cons.mp hx with rfl | hx
      · exact ⟨_, _, hcall⟩
      · exact ih x hx

/-- The law of many generators. With different addresses, and as long as the clock stays
within the 41 bits of the time, no id is handed out twice, whoever is called when
and however the clock's readings fall to the calls; and no short form is either. -/
theorem no_id_issued_twice {worker datacenter : ι → Int} {gs gs' : ι → Generator}
    {log : List (ι × Entry)}
    (hcreate : ∀ i, Generator.create (worker i) (datacenter i) = .ok (gs i))
    (hdiffer : ∀ i j, i ≠ j → (worker i, datacenter i) ≠ (worker j, datacenter j))
    (hrun : Interleaves gs log gs') (hw : WithinWindow (log.map Prod.snd)) :
    (∀ x ∈ log, ∀ r, x.2.answer = .ok r →
      ∃ id, r.id? = some id ∧ r.text = Base62.encode id) ∧
    (log.filterMap fun x => x.2.id?).Nodup ∧ (log.filterMap fun x => x.2.text?).Nodup := by
  have haddress : ∀ i j, i ≠ j → (gs i).address ≠ (gs j).address := by
    intro i j hij heq
    obtain ⟨hwi, hdi, _⟩ := create_eq_ok (hcreate i)
    obtain ⟨hwj, hdj, _⟩ := create_eq_ok (hcreate j)
    exact hdiffer i j hij (by rw [← hwi, ← hdi, ← hwj, ← hdj, heq])
  have hreceipts : ∀ x ∈ log,
      x.2.text? = x.2.id?.map Base62.encode ∧ ∀ id, x.2.id? = some id → 0 ≤ id := by
    intro x hx
    obtain ⟨g, g', hhandles⟩ := handles_of_mem_interleaving hrun x hx
    exact receipt_in_window hhandles (hw x.2 (List.mem_map_of_mem hx))
  have hids : (log.filterMap fun x => x.2.id?).Nodup :=
    List.pairwise_filterMap.mpr (pairwise_id_ne hrun hw haddress)
  refine ⟨?_, hids, ?_⟩
  · intro x hx r hok
    obtain ⟨g, g', hhandles⟩ := handles_of_mem_interleaving hrun x hx
    obtain ⟨slot, hreach, hfor⟩ := slot_of_ok hhandles hok
    have hslot := hreach.inWindow (hw x.2 (List.mem_map_of_mem hx))
    exact ⟨_, hfor.id?_eq (Slot.id_nonneg _ hslot), hfor.text_eq⟩
  · have htexts : (log.filterMap fun x => x.2.text?)
        = (log.filterMap fun x => x.2.id?).map Base62.encode := by
      rw [List.map_filterMap]
      exact List.filterMap_congr fun x hx => (hreceipts x hx).1
    rw [htexts]
    refine List.Nodup.map_on ?_ hids
    intro id hid id' hid' h
    obtain ⟨x, hx, hxid⟩ := List.mem_filterMap.mp hid
    obtain ⟨y, hy, hyid⟩ := List.mem_filterMap.mp hid'
    exact Base62.encode_injOn_nonneg ((hreceipts x hx).2 id hxid) ((hreceipts y hy).2 id' hyid) h

/-- Two generators at swapped addresses and one clock that goes back in between: both issue
in the same millisecond, the first is refused, and the second goes on in short form. -/
theorem no_id_issued_twice_at_swapped_addresses :
    ∃ (gs gs' : Bool → Generator) (log : List (Bool × Entry)),
      (∀ i, Generator.create (if i then 1 else 2) (if i then 2 else 1) = .ok (gs i)) ∧
        Interleaves gs log gs' ∧ WithinWindow (log.map Prod.snd) ∧
        log.map (fun x => (x.1, x.2.answer.toOption.isSome))
          = [(true, true), (false, true), (true, false), (false, true)] ∧
        (log.filterMap fun x => x.2.id?).Nodup := by
  let t : Instant := .ofUnixMillis (epochMillis + 5)
  let early : Instant := .ofUnixMillis (epochMillis + 3)
  let g (i : Bool) (last : Slot) : Generator :=
    { address := { worker := if i then 1 else 2, datacenter := if i then 2 else 1 }, last }
  let fresh (i : Bool) := g i { millis := -1, sequence := 0 }
  let once (i : Bool) := g i { millis := epochMillis + 5, sequence := 0 }
  let twice (i : Bool) := g i { millis := epochMillis + 5, sequence := 1 }
  let id (g : Generator) : Id := g.last.id g.address
  let log : List (Bool × Entry) :=
    [(true, { answer := .ok (.number (id (once true))), readings := [t] }),
     (false, { answer := .ok (.number (id (once false))), readings := [t] }),
     (true, { answer := .error ⟨2⟩, readings := [early] }),
     (false, { answer := .ok (.short (Base62.encode (id (twice false)))), readings := [t] })]
  have hfirst (i : Bool) : (fresh i).Answers [t] (.ok (id (once i))) (once i) := by
    cases i <;> exact .issued (.later (by decide))
  have hrefused : (once true).Answers [early] (.error ⟨2⟩) (once true) := .refused (by decide)
  have hsecond : (once false).Answers [t] (.ok (id (twice false))) (twice false) :=
    .issued (.same (by decide) (by decide))
  have hcreate : ∀ i : Bool,
      Generator.create (if i then 1 else 2) (if i then 2 else 1) = .ok (fresh i) := by
    intro i
    cases i <;> rfl
  have hdiffer : ∀ i j : Bool, i ≠ j →
      ((if i then 1 else 2 : Int), (if i then 2 else 1 : Int))
        ≠ (if j then 1 else 2, if j then 2 else 1) := by decide
  obtain ⟨gs', hrun⟩ : ∃ gs', Interleaves fresh log gs' :=
    ⟨_, .cons (handles_of_answers (hfirst true)).1 (.cons (handles_of_answers (hfirst false)).1
      (.cons (handles_of_answers hrefused).1 (.cons (handles_of_answers hsecond).2 .nil)))⟩
  have hw : WithinWindow (log.map Prod.snd) := by
    intro e he u hu
    simp only [log, List.map_cons, List.map_nil, List.mem_cons, List.not_mem_nil, or_false] at he
    rcases he with rfl | rfl | rfl | rfl <;> rw [List.mem_singleton.mp hu] <;> decide
  exact ⟨fresh, gs', log, hcreate, hrun, hw, rfl, (no_id_issued_twice hcreate hdiffer hrun hw).2.1⟩

end IdMint.Snowflake
