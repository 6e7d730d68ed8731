import IdMint.Proofs.Issuing

/-!
# What a short id loses

A call for a short id is the call for the id, and its result is rendered
afterwards. So the two are refused alike and leave the same behind, and the only
question is whether the text still tells the id.

It does unless the id is the least word. That one is written with no character,
as zero is, and is then read as zero. Which ids these two are is a matter of the
layout: both have nothing below the milliseconds, so they belong to the address
of zeros and to the first sequence, and the milliseconds themselves have
wrapped to nothing or to the sign alone.
-/

namespace IdMint.Snowflake

/-! ## The ids without a text -/

theorem Slot.low_eq_zero_iff (address : Address) (s : Slot) :
    (s.fields address).low = 0 ↔
      address.worker = 0 ∧ address.datacenter = 0 ∧ s.sequence = 0 := by
  rw [Fields.low_eq_zero_iff (s.fit_fields address)]
  simp only [Slot.fields, Fin.ext_iff]
  omega

theorem Slot.id_eq_zero_iff (address : Address) (s : Slot) :
    s.id address = 0 ↔
      (address.worker = 0 ∧ address.datacenter = 0 ∧ s.sequence = 0) ∧
        s.millis - epochMillis ≡ 0 [ZMOD 2 ^ 42] := by
  rw [Slot.id_eq, Fields.compose_eq_zero_iff (s.fit_fields address), Slot.low_eq_zero_iff]
  rfl

theorem Slot.id_eq_minValue_iff (address : Address) (s : Slot) :
    s.id address = Int64.minValue ↔
      (address.worker = 0 ∧ address.datacenter = 0 ∧ s.sequence = 0) ∧
        s.millis - epochMillis ≡ 2 ^ 41 [ZMOD 2 ^ 42] := by
  rw [Slot.id_eq, Fields.compose_eq_minValue_iff (s.fit_fields address), Slot.low_eq_zero_iff]
  rfl

theorem Slot.id_nonneg_or (address : Address) (s : Slot) :
    0 ≤ s.id address ∨ s.id address = Int64.minValue := by
  rw [Slot.id_eq, Fields.compose_eq (s.fit_fields address)]
  exact unsigned_nonneg_or _

/-- What is written of an id is read as that id, unless the id is the least word. -/
theorem Slot.decode?_encode_id_iff (address : Address) (s : Slot) :
    Base62.decode? (Base62.encode (s.id address)) = some (s.id address) ↔
      s.id address ≠ Int64.minValue := by
  constructor
  · intro h hmin
    rw [hmin] at h
    exact absurd h (by decide)
  · intro h
    exact Base62.decode?_encode ((s.id_nonneg_or address).resolve_right h)

theorem Slot.encode_id_eq_nil_iff (address : Address) (s : Slot) :
    Base62.encode (s.id address) = [] ↔ s.id address = 0 ∨ s.id address = Int64.minValue := by
  rw [Base62.encode_eq_nil_iff]
  constructor
  · intro h
    exact (s.id_nonneg_or address).imp_left fun hnonneg => Int64.le_antisymm h hnonneg
  · rintro (h | h) <;> rw [h]
    · exact Int64.le_refl 0
    · decide

/-! ## The two calls -/

section

variable {κ : Type} [Source κ Instant] {g : Generator} {clock : Supply κ}

/-- The id that a call hands out is that of the slot which the generator remembers then, and
the slot is in the millisecond of the last reading. -/
theorem last_slot_of_ok {call : Call κ Id} {id : Id} (hcall : g.next clock = some call)
    (hok : call.result = .ok id) :
    ∃ readings t, clock.Gives readings call.clock ∧ readings.getLast? = some t ∧
      call.generator.last.millis = t.unixMillis ∧ id = call.generator.last.id g.address := by
  obtain ⟨readings, htaken, hanswers⟩ := next_eq_some_iff.mp hcall
  rw [hok] at hanswers
  generalize call.generator = g' at hanswers ⊢
  cases hanswers with
  | issued hreach =>
      obtain ⟨t, hlast, hmillis⟩ := hreach.getLast?
      exact ⟨readings, t, htaken, hlast, hmillis, rfl⟩

theorem nextShort_eq_none_iff : g.nextShort clock = none ↔ g.next clock = none :=
  Option.map_eq_none_iff

/-- The call for the text is the call for the id, rendered. -/
theorem nextShort_of_next {call : Call κ Id} {short : Call κ Bytes}
    (hcall : g.next clock = some call) (hshort : g.nextShort clock = some short) :
    short = call.map Base62.encode := by
  rw [Generator.nextShort, hcall] at hshort
  exact (Option.some.inj hshort).symm

end

/-! ## The texts of a run -/

theorem texts_of_serves {g g' : Generator} {log : List Entry} (hrun : g.Serves log g')
    (hw : WithinWindow log) :
    log.filterMap Entry.text? = (issuedIds log).map Base62.encode ∧
      ∀ id ∈ issuedIds log, 0 ≤ id := by
  have hreceipts : ∀ e ∈ log,
      e.text? = e.id?.map Base62.encode ∧ ∀ id, e.id? = some id → 0 ≤ id := by
    intro e he
    obtain ⟨g₁, g₂, _, hhandles⟩ := handles_of_mem hrun e he
    exact receipt_in_window hhandles (hw e he)
  constructor
  · rw [issuedIds, List.map_filterMap]
    exact List.filterMap_congr fun e he => (hreceipts e he).1
  · intro id hid
    obtain ⟨e, he, hsome⟩ := List.mem_filterMap.mp hid
    exact (hreceipts e he).2 id hsome

/-- Ids rise, and short forms keep their order. -/
theorem pairwise_texts {g g' : Generator} {log : List Entry} (hrun : g.Serves log g')
    (hw : WithinWindow log) : (log.filterMap Entry.text?).Pairwise Base62.Precedes := by
  obtain ⟨htexts, hnonneg⟩ := texts_of_serves hrun hw
  rw [htexts]
  refine List.pairwise_map.mpr ((pairwise_issuedIds hrun hw).imp_of_mem ?_)
  intro id id' hid hid' h
  exact (Base62.encode_precedes_encode_iff (hnonneg id hid) (hnonneg id' hid')).mpr h

/-! ## The law of short ids -/

/-- Short ids are faithful. After any run of a new generator, and whatever the clock shows
then, a call for a short id does what the call for the id does: it is refused with the same
error or hands out the text of the same id, and leaves the same generator and clock. The
text is read as the id unless that is the least word, and it is empty for that one and for
zero alone, which are the ids of the address of zeros in its first sequence, at times that
have wrapped to the sign or to nothing. As long as the clock stays within the 41 bits of the
time, texts precede each other in the order in which they are issued. -/
theorem short_ids_faithful {worker datacenter : Int} {g g' : Generator} {log : List Entry}
    (hcreate : Generator.create worker datacenter = .ok g) (hrun : g.Serves log g') :
    (∀ {κ : Type} [Source κ Instant] (clock : Supply κ),
      (g'.nextShort clock = none ↔ g'.next clock = none) ∧
      ∀ call short, g'.next clock = some call → g'.nextShort clock = some short →
        short.generator = call.generator ∧ short.clock = call.clock ∧
        (∀ e, short.result = .error e ↔ call.result = .error e) ∧
        ∀ id, call.result = .ok id →
          short.result = .ok (Base62.encode id) ∧
          (Base62.decode? (Base62.encode id) = some id ↔ id ≠ Int64.minValue) ∧
          (Base62.encode id = [] ↔ id = 0 ∨ id = Int64.minValue) ∧
          ∃ readings t, clock.Gives readings call.clock ∧ readings.getLast? = some t ∧
            (id = 0 ↔
              (worker = 0 ∧ datacenter = 0 ∧ call.generator.last.sequence = 0) ∧
                t.unixMillis - epochMillis ≡ 0 [ZMOD 2 ^ 42]) ∧
            (id = Int64.minValue ↔
              (worker = 0 ∧ datacenter = 0 ∧ call.generator.last.sequence = 0) ∧
                t.unixMillis - epochMillis ≡ 2 ^ 41 [ZMOD 2 ^ 42])) ∧
    (WithinWindow log → (log.filterMap Entry.text?).Pairwise Base62.Precedes) := by
  refine ⟨?_, pairwise_texts hrun⟩
  intro κ _ clock
  refine ⟨nextShort_eq_none_iff, ?_⟩
  intro call short hcall hshort
  rw [nextShort_of_next hcall hshort]
  refine ⟨rfl, rfl, ?_, ?_⟩
  · intro e
    simp only [Call.map]
    cases call.result <;> simp [Except.map]
  · intro id hok
    obtain ⟨hworker, hdatacenter, _⟩ := create_eq_ok hcreate
    have haddress := address_of_serves hrun
    obtain ⟨readings, t, htaken, hlast, hmillis, rfl⟩ := last_slot_of_ok hcall hok
    have hzeros : g'.address.worker = 0 ∧ g'.address.datacenter = 0 ∧
        call.generator.last.sequence = 0 ↔
        worker = 0 ∧ datacenter = 0 ∧ call.generator.last.sequence = 0 := by
      rw [haddress, ← hworker, ← hdatacenter, Fin.ext_iff, Fin.ext_iff]
      simp
    refine ⟨by rw [Call.map, hok]; rfl, Slot.decode?_encode_id_iff _ _,
      Slot.encode_id_eq_nil_iff _ _, readings, t, htaken, hlast, ?_, ?_⟩
    · rw [Slot.id_eq_zero_iff, hzeros, hmillis]
    · rw [Slot.id_eq_minValue_iff, hzeros, hmillis]

/-- The address of zeros at the epoch, a millisecond later, and with the clock two to the
forty-first milliseconds ahead: the first text is empty, the second is after it, and the
last is empty again and no longer tells its id. -/
theorem short_ids_faithful_at_address_of_zeros :
    ∃ (g g' : Generator) (log : List Entry) (clock : Supply (Tape Instant))
      (call : Call (Tape Instant) Id) (short : Call (Tape Instant) Bytes),
      Generator.create 0 0 = .ok g ∧ g.Serves log g' ∧ WithinWindow log ∧
        log.filterMap Entry.text? = [[], ascii "hB84"] ∧
        (log.filterMap Entry.text?).Pairwise Base62.Precedes ∧
        g'.next clock = some call ∧ g'.nextShort clock = some short ∧
        call.result = .ok Int64.minValue ∧ short.result = .ok [] ∧
        ¬ Base62.decode? (Base62.encode Int64.minValue) = some Int64.minValue := by
  let t (n : Int) : Instant := .ofUnixMillis (epochMillis + n)
  let g (last : Slot) : Generator := { address := { worker := 0, datacenter := 0 }, last }
  let fresh := g { millis := -1, sequence := 0 }
  let once := g { millis := epochMillis, sequence := 0 }
  let twice := g { millis := epochMillis + 1, sequence := 0 }
  let ahead := g { millis := epochMillis + 2 ^ 41, sequence := 0 }
  let log : List Entry :=
    [{ answer := .ok (.short (Base62.encode (once.last.id once.address))), readings := [t 0] },
     { answer := .ok (.number (twice.last.id twice.address)), readings := [t 1] }]
  have h₁ : fresh.Answers [t 0] (.ok (once.last.id once.address)) once :=
    .issued (.later (by decide))
  have h₂ : once.Answers [t 1] (.ok (twice.last.id twice.address)) twice :=
    .issued (.later (by decide))
  have h₃ : twice.Answers [t (2 ^ 41)] (.ok (ahead.last.id ahead.address)) ahead :=
    .issued (.later (by decide))
  have hcreate : Generator.create 0 0 = .ok fresh := rfl
  have hrun : fresh.Serves log twice :=
    .cons (handles_of_answers h₁).2 (.cons (handles_of_answers h₂).1 .nil)
  have hw : WithinWindow log := by
    intro e he u hu
    simp only [log, List.mem_cons, List.not_mem_nil, or_false] at he
    rcases he with rfl | rfl <;> rw [List.mem_singleton.mp hu] <;> decide
  have hcall : twice.next _ = some { result := _, generator := ahead, clock := _ } :=
    next_eq_some_iff.mpr ⟨_, Supply.gives_tape (t (2 ^ 41)) [t (2 ^ 41)] 0, h₃⟩
  have hshort := congrArg (Option.map (Call.map Base62.encode)) hcall
  have hmin : ahead.last.id ahead.address = Int64.minValue := by decide
  obtain ⟨hcalls, hordered⟩ := short_ids_faithful hcreate hrun
  obtain ⟨_, _, _, hissued⟩ := (hcalls _).2 _ _ hcall hshort
  obtain ⟨htext, htold, _⟩ := hissued Int64.minValue (congrArg Except.ok hmin)
  exact ⟨fresh, twice, log, _, _, _, hcreate, hrun, hw, by decide, hordered hw, hcall, hshort,
    congrArg Except.ok hmin, htext, fun h => htold.mp h rfl⟩

end IdMint.Snowflake
