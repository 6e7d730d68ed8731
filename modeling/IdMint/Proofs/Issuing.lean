import IdMint.Proofs.Base62
import IdMint.Proofs.Packing
import IdMint.Proofs.Places
import IdMint.Proofs.Readings
import IdMint.Snowflake.Generator

/-!
# A generator issues in order

A call takes readings and answers. `Answers` says once what a call can do with
the readings it takes: refuse the first, or go from the slot filled last to a
later one, which `Reaches` describes. Everything about runs follows from
these two, and the calls are not opened again.

A slot reached is the next place in the count of its millisecond or the first
of a later one, whatever the clock did on the way. So the slots of a run
are counted places, and as long as the milliseconds fit the 41 bits that an id
has for them the ids are these places in another notation: they rise, they
tell the millisecond of the reading that settled the call, and the ids of one
millisecond carry the sequences 0, 1, 2 and so on.
-/

namespace IdMint.Snowflake

/-! ## One call -/

/-- From the slot filled last, the readings lead to the slot. -/
inductive Slot.Reaches (last : Slot) : List Instant → Slot → Prop
  | later {t : Instant} (h : last.millis < t.unixMillis) :
      Reaches last [t] { millis := t.unixMillis, sequence := 0 }
  | same {t : Instant} (h : t.unixMillis = last.millis) (hleft : last.sequence + 1 ≠ 0) :
      Reaches last [t] { millis := t.unixMillis, sequence := last.sequence + 1 }
  | waited {t found : Instant} {passed : List Instant} (h : t.unixMillis = last.millis)
      (hfull : last.sequence + 1 = 0) (hpassed : ∀ u ∈ passed, u.unixMillis ≤ last.millis)
      (hfound : last.millis < found.unixMillis) :
      Reaches last (t :: (passed ++ [found])) { millis := found.unixMillis, sequence := 0 }

/-- A call that takes the readings gives the answer and leaves the second generator. -/
inductive Generator.Answers (g : Generator) :
    List Instant → Except ClockError Id → Generator → Prop
  | refused {t : Instant} (h : t.unixMillis < g.last.millis) :
      Answers g [t] (.error ⟨g.last.millis - t.unixMillis⟩) g
  | issued {readings : List Instant} {slot : Slot} (h : g.last.Reaches readings slot) :
      Answers g readings (.ok (slot.id g.address)) { g with last := slot }

theorem Slot.Reaches.first {last slot : Slot} {readings : List Instant}
    (h : last.Reaches readings slot) :
    ∃ t more, readings = t :: more ∧ last.millis ≤ t.unixMillis := by
  cases h with
  | later hlater => exact ⟨_, _, rfl, Int.le_of_lt hlater⟩
  | same hsame => exact ⟨_, _, rfl, Int.le_of_eq hsame.symm⟩
  | waited hsame => exact ⟨_, _, rfl, Int.le_of_eq hsame.symm⟩

variable {κ : Type} [Source κ Instant]

theorem nextSlot_eq_some_iff {g : Generator} {now : Instant} {clock clock' : Supply κ}
    {slot : Slot} (hnow : g.last.millis ≤ now.unixMillis) :
    g.nextSlot now.unixMillis clock = some (slot, clock') ↔
      ∃ more, clock.Gives more clock' ∧ g.last.Reaches (now :: more) slot := by
  rw [Generator.nextSlot]
  constructor
  · intro h
    split at h
    · next hlater =>
        cases h
        exact ⟨[], .nil, .later hlater⟩
    · next hlater =>
        have hsame : now.unixMillis = g.last.millis := by omega
        split at h
        · next hleft =>
            cases h
            exact ⟨[], .nil, .same hsame hleft⟩
        · next hleft =>
            obtain ⟨⟨found, clock₂⟩, hseek, hslot⟩ := Option.bind_eq_some_iff.mp h
            cases hslot
            obtain ⟨passed, hgives, hpassed, hfound⟩ := Supply.seek_eq_some_iff.mp hseek
            refine ⟨passed ++ [found], hgives, .waited hsame (not_not.mp hleft) ?_ ?_⟩
            · intro u hu
              simpa using hpassed u hu
            · simpa using hfound
  · rintro ⟨more, hgives, hreach⟩
    cases hreach with
    | later hlater =>
        cases hgives
        rw [if_pos hlater]
    | same hsame hleft =>
        cases hgives
        rw [if_neg (by omega), if_pos hleft]
    | @waited _ found passed hsame hfull hpassed hfound =>
        have hseek : clock.seek (fun t => g.last.millis < t.unixMillis) = some (found, clock') := by
          refine Supply.seek_eq_some_iff.mpr ⟨passed, hgives, ?_, by simpa using hfound⟩
          intro u hu
          simpa using hpassed u hu
        rw [if_neg (by omega), if_neg (not_not.mpr hfull), hseek]
        rfl

/-- What a call can do, by the readings that it takes. -/
theorem next_eq_some_iff {g : Generator} {clock : Supply κ} {call : Call κ Id} :
    g.next clock = some call ↔
      ∃ readings, clock.Gives readings call.clock ∧
        g.Answers readings call.result call.generator := by
  rw [Generator.next]
  constructor
  · intro h
    obtain ⟨⟨now, clock₁⟩, hnow, h⟩ := Option.bind_eq_some_iff.mp h
    have hgives := Supply.next?_eq_some_iff.mp hnow
    simp only at h
    split at h
    · next hbehind =>
        cases h
        exact ⟨[now], hgives, .refused hbehind⟩
    · next hbehind =>
        obtain ⟨⟨slot, clock₂⟩, hslot, h⟩ := Option.bind_eq_some_iff.mp h
        cases h
        obtain ⟨more, hmore, hreach⟩ := (nextSlot_eq_some_iff (by omega)).mp hslot
        exact ⟨now :: more, hgives.append hmore, .issued hreach⟩
  · obtain ⟨result, g', clock'⟩ := call
    rintro ⟨readings, hgives, hanswers⟩
    simp only at hgives hanswers
    cases hanswers with
    | @refused now hbehind =>
        rw [Supply.next?_eq_some_iff.mpr hgives]
        exact if_pos hbehind
    | issued hreach =>
        obtain ⟨now, more, rfl, hnow⟩ := hreach.first
        have hsplit : clock.Gives ([now] ++ more) clock' := hgives
        obtain ⟨clock₁, hfirst, hmore⟩ := Supply.gives_append_iff.mp hsplit
        have hslot := (nextSlot_eq_some_iff hnow).mpr ⟨more, hmore, hreach⟩
        rw [Supply.next?_eq_some_iff.mpr hfirst]
        show (if _ then _ else _) = _
        rw [if_neg (by omega), hslot]
        rfl

/-! ## The slot reached

Time and sequence of a slot make a place, and a call moves to the next one. -/

/-- The millisecond and the sequence in it. -/
def Slot.place (s : Slot) : Place := { period := s.millis, index := s.sequence.val }

theorem Slot.Reaches.next {last slot : Slot} {readings : List Instant}
    (h : last.Reaches readings slot) : Place.Next last.place slot.place := by
  cases h with
  | later hlater => exact .inr ⟨hlater, rfl⟩
  | same hsame hleft =>
      refine .inl ⟨hsame, ?_⟩
      have hsucc : (last.sequence + 1).val = last.sequence.val + 1 := by
        have hne : (last.sequence + 1).val ≠ 0 := fun h => hleft (Fin.ext h)
        have hone : (1 : Fin 4096).val = 1 := rfl
        rw [Fin.val_add, hone] at hne ⊢
        omega
      simp only [Slot.place, hsucc]
      push_cast
      rfl
  | waited _ _ _ hfound => exact .inr ⟨hfound, rfl⟩

/-- A call is settled by the last reading that it takes. -/
theorem Slot.Reaches.getLast? {last slot : Slot} {readings : List Instant}
    (h : last.Reaches readings slot) :
    ∃ t, readings.getLast? = some t ∧ slot.millis = t.unixMillis := by
  cases h with
  | later => exact ⟨_, rfl, rfl⟩
  | same => exact ⟨_, rfl, rfl⟩
  | waited => exact ⟨_, by simp [List.getLast?_cons], rfl⟩

/-! ## Ids are slots in another notation -/

/-- The fields of the id of a slot. -/
def Slot.fields (address : Address) (s : Slot) : Fields :=
  { timestampMillis := s.millis, datacenter := address.datacenter.val,
    worker := address.worker.val, sequence := s.sequence.val }

theorem Slot.id_eq (address : Address) (s : Slot) :
    s.id address = (s.fields address).compose := rfl

theorem Slot.fit_fields (address : Address) (s : Slot) : (s.fields address).Fit := by
  have hd := address.datacenter.isLt
  have hw := address.worker.isLt
  have hs := s.sequence.isLt
  constructor <;> simp only [Slot.fields] <;> omega

/-- Milliseconds that an id can hold. -/
def InWindow (millis : Int) : Prop := epochMillis ≤ millis ∧ millis < epochMillis + 2 ^ 41

instance (millis : Int) : Decidable (InWindow millis) := inferInstanceAs (Decidable (_ ∧ _))

theorem Slot.inWindow_fields {s : Slot} (address : Address) (h : InWindow s.millis) :
    (s.fields address).InWindow := by
  simp only [InWindow] at h
  simp only [Fields.InWindow, Fields.delta, Slot.fields]
  omega

theorem Slot.decompose_id {s : Slot} (address : Address) (h : InWindow s.millis) :
    Fields.decompose (s.id address) = s.fields address :=
  Fields.decompose_compose (s.fit_fields address) (Slot.inWindow_fields address h)

theorem Slot.id_nonneg {s : Slot} (address : Address) (h : InWindow s.millis) :
    0 ≤ s.id address := by
  have hfit := s.fit_fields address
  have hwindow := Slot.inWindow_fields address h
  rw [Int64.le_iff_toInt_le, Int64.toInt_zero, Slot.id_eq, Fields.toInt_compose hfit hwindow]
  exact (Fields.plain_bounds hfit hwindow).1

/-- At one address a later place has the greater id: the sequence stays below one
unit of the millisecond. -/
theorem Slot.id_lt_id {s s' : Slot} (address : Address) (h : InWindow s.millis)
    (h' : InWindow s'.millis) (hbefore : Place.Before s.place s'.place) :
    s.id address < s'.id address := by
  have hs := s.sequence.isLt
  have hs' := s'.sequence.isLt
  rw [Int64.lt_iff_toInt_lt, Slot.id_eq, Slot.id_eq,
    Fields.toInt_compose (s.fit_fields address) (Slot.inWindow_fields address h),
    Fields.toInt_compose (s'.fit_fields address) (Slot.inWindow_fields address h')]
  simp only [Place.Before, Slot.place] at hbefore
  simp only [Fields.plain, Fields.delta, Fields.low, Slot.fields]
  omega

/-! ## Runs

A run is a list of calls, each in the form the caller chose. Nothing relates the
clocks that two calls find: between them the clock may have been read by
others, set or moved, so a run on one clock is a run, and so is the part that
one generator has in the work of several. -/

/-- What a caller is handed: an id, or the short form of one. -/
inductive Receipt where
  | number (id : Id)
  | short (text : Bytes)
  deriving DecidableEq, Repr

/-- The id that a receipt stands for; a short form is read. -/
def Receipt.id? : Receipt → Option Id
  | .number id => some id
  | .short text => Base62.decode? text

/-- The short form of what was handed out. -/
def Receipt.text : Receipt → Bytes
  | .number id => Base62.encode id
  | .short text => text

/-- The id, as it is or in its short form. -/
inductive Receipt.IsFor (id : Id) : Receipt → Prop
  | number : IsFor id (.number id)
  | short : IsFor id (.short (Base62.encode id))

theorem Receipt.IsFor.id?_eq {id : Id} {r : Receipt} (h : r.IsFor id) (hid : 0 ≤ id) :
    r.id? = some id := by
  cases h with
  | number => rfl
  | short => exact Base62.decode?_encode hid

theorem Receipt.IsFor.text_eq {id : Id} {r : Receipt} (h : r.IsFor id) :
    r.text = Base62.encode id := by
  cases h <;> rfl

/-- A call as it is remembered: its answer and the readings that it took. -/
structure Entry where
  answer : Except ClockError Receipt
  readings : List Instant

/-- The generator answers one call, in either form, and becomes the second one. -/
inductive Generator.Handles : Generator → Entry → Generator → Prop
  | number {κ : Type} [Source κ Instant] {g : Generator} {clock : Supply κ} {call : Call κ Id}
      {readings : List Instant} (hcall : g.next clock = some call)
      (htaken : clock.Gives readings call.clock) :
      Handles g { answer := call.result.map .number, readings } call.generator
  | short {κ : Type} [Source κ Instant] {g : Generator} {clock : Supply κ}
      {call : Call κ Bytes} {readings : List Instant} (hcall : g.nextShort clock = some call)
      (htaken : clock.Gives readings call.clock) :
      Handles g { answer := call.result.map .short, readings } call.generator

/-- The generator answers the calls one after the other. -/
inductive Generator.Serves : Generator → List Entry → Generator → Prop
  | nil {g : Generator} : Serves g [] g
  | cons {g g₁ g' : Generator} {e : Entry} {log : List Entry} (hcall : g.Handles e g₁)
      (hrest : Serves g₁ log g') : Serves g (e :: log) g'

/-- The form of a call only decides what the receipt looks like. -/
theorem answers_of_handles {g g' : Generator} {e : Entry} (h : g.Handles e g') :
    (∃ error, e.answer = .error error ∧ g.Answers e.readings (.error error) g') ∨
      ∃ id r, e.answer = .ok r ∧ r.IsFor id ∧ g.Answers e.readings (.ok id) g' := by
  cases h with
  | @number κ _ _ clock call readings hcall htaken =>
      obtain ⟨readings', htaken', hanswers⟩ := next_eq_some_iff.mp hcall
      rw [← htaken.unique htaken'] at hanswers
      cases hresult : call.result with
      | error error => exact .inl ⟨error, rfl, hresult ▸ hanswers⟩
      | ok id => exact .inr ⟨id, _, rfl, .number, hresult ▸ hanswers⟩
  | @short κ _ _ clock call readings hcall htaken =>
      obtain ⟨call', hcall', rfl⟩ := Option.map_eq_some_iff.mp hcall
      obtain ⟨readings', htaken', hanswers⟩ := next_eq_some_iff.mp hcall'
      rw [← Supply.Gives.unique htaken htaken'] at hanswers
      simp only [Call.map]
      cases hresult : call'.result with
      | error error => exact .inl ⟨error, rfl, hresult ▸ hanswers⟩
      | ok id => exact .inr ⟨id, _, rfl, .short, hresult ▸ hanswers⟩

/-- Every way of answering is that of some call: of one on a clock that shows just these
readings. -/
theorem handles_of_answers {g g' : Generator} {readings : List Instant}
    {result : Except ClockError Id} (h : g.Answers readings result g') :
    g.Handles { answer := result.map .number, readings } g' ∧
      g.Handles { answer := result.map fun id => .short (Base62.encode id), readings } g' := by
  have htaken := Supply.gives_tape (⟨0⟩ : Instant) readings 0
  have hcall : g.next _ = some { result, generator := g', clock := _ } :=
    next_eq_some_iff.mpr ⟨readings, htaken, h⟩
  have hshort := congrArg (Option.map (Call.map Base62.encode)) hcall
  refine ⟨.number hcall htaken, ?_⟩
  have hhandles := Generator.Handles.short hshort htaken
  cases result <;> exact hhandles

/-- A call leaves the generator as it was, or has it fill the slot that the readings
lead to. -/
theorem handles_cases {g g' : Generator} {e : Entry} (h : g.Handles e g') :
    (g' = g ∧ ∃ error, e.answer = .error error) ∨
      ∃ slot r, g.last.Reaches e.readings slot ∧ g' = { g with last := slot } ∧
        e.answer = .ok r ∧ r.IsFor (slot.id g.address) := by
  rcases answers_of_handles h with ⟨error, herror, hanswers⟩ | ⟨id, r, hok, hfor, hanswers⟩ <;>
    generalize e.readings = readings at hanswers ⊢
  · cases hanswers with
    | refused => exact .inl ⟨rfl, _, herror⟩
  · cases hanswers with
    | issued hreach => exact .inr ⟨_, r, hreach, rfl, hok, hfor⟩

theorem address_of_handles {g g' : Generator} {e : Entry} (h : g.Handles e g') :
    g'.address = g.address := by
  rcases handles_cases h with ⟨rfl, _⟩ | ⟨_, _, _, rfl, _⟩ <;> rfl

theorem address_of_serves {g g' : Generator} {log : List Entry} (h : g.Serves log g') :
    g'.address = g.address := by
  induction h with
  | nil => rfl
  | cons hcall _ ih => exact ih.trans (address_of_handles hcall)

/-- What a successful call hands out is for the id of the slot that its readings lead to. -/
theorem slot_of_ok {g g' : Generator} {e : Entry} {r : Receipt} (h : g.Handles e g')
    (hok : e.answer = .ok r) :
    ∃ slot, g.last.Reaches e.readings slot ∧ r.IsFor (slot.id g.address) := by
  rcases handles_cases h with ⟨_, error, herror⟩ | ⟨slot, r', hreach, _, hok', hfor⟩
  · rw [hok] at herror
    cases herror
  · rw [hok] at hok'
    cases hok'
    exact ⟨slot, hreach, hfor⟩

/-- The id that a call handed out, in either form. -/
def Entry.id? (e : Entry) : Option Id := e.answer.toOption.bind Receipt.id?

/-- The short form of what a call handed out. -/
def Entry.text? (e : Entry) : Option Bytes := e.answer.toOption.map Receipt.text

/-- The ids of a run, in the order in which they were issued. -/
def issuedIds (log : List Entry) : List Id := log.filterMap Entry.id?

/-- All readings that a run took lie within the milliseconds that an id can hold. -/
def WithinWindow (log : List Entry) : Prop :=
  ∀ e ∈ log, ∀ t ∈ e.readings, InWindow t.unixMillis

theorem Slot.Reaches.inWindow {last slot : Slot} {readings : List Instant}
    (h : last.Reaches readings slot) (hw : ∀ t ∈ readings, InWindow t.unixMillis) :
    InWindow slot.millis := by
  obtain ⟨t, hlast, hmillis⟩ := h.getLast?
  rw [hmillis]
  exact hw t (List.mem_of_getLast? hlast)

/-- Within the window a receipt is as good as the id, which is that of the slot. -/
theorem handles_in_window {g g' : Generator} {e : Entry} (h : g.Handles e g')
    (hw : ∀ t ∈ e.readings, InWindow t.unixMillis) :
    (g' = g ∧ e.id? = none ∧ e.text? = none) ∨
      ∃ slot, Place.Next g.last.place slot.place ∧ InWindow slot.millis ∧
        g' = { g with last := slot } ∧ e.id? = some (slot.id g.address) ∧
        e.text? = some (Base62.encode (slot.id g.address)) := by
  simp only [Entry.id?, Entry.text?]
  rcases handles_cases h with ⟨hg, error, herror⟩ | ⟨slot, r, hreach, hg, hok, hfor⟩
  · rw [herror]
    exact .inl ⟨hg, rfl, rfl⟩
  · have hslot := hreach.inWindow hw
    have hid := hfor.id?_eq (Slot.id_nonneg g.address hslot)
    rw [hok]
    exact .inr ⟨slot, hreach.next, hslot, hg, hid, congrArg some hfor.text_eq⟩

/-- Within the window what is handed out is an id that is not negative, or the short form
of one. -/
theorem receipt_in_window {g g' : Generator} {e : Entry} (h : g.Handles e g')
    (hw : ∀ t ∈ e.readings, InWindow t.unixMillis) :
    e.text? = e.id?.map Base62.encode ∧ ∀ id, e.id? = some id → 0 ≤ id := by
  rcases handles_in_window h hw with ⟨_, hnone, htext⟩ | ⟨slot, _, hslot, _, hsome, htext⟩
  · rw [hnone, htext]
    exact ⟨rfl, fun id hid => by cases hid⟩
  · rw [hsome, htext]
    refine ⟨rfl, fun id hid => ?_⟩
    cases hid
    exact Slot.id_nonneg g.address hslot

/-- The ids of a run are those of slots that follow one another, starting after the
slot filled last. -/
theorem slots_of_serves {g g' : Generator} {log : List Entry} (h : g.Serves log g')
    (hw : WithinWindow log) :
    ∃ slots : List Slot,
      issuedIds log = slots.map (Slot.id g.address) ∧
      (g.last.place :: slots.map Slot.place).IsChain Place.Next ∧
      ∀ s ∈ slots, InWindow s.millis := by
  induction h with
  | nil => exact ⟨[], rfl, List.isChain_singleton _, by simp⟩
  | @cons g g₁ g' e log hcall _ ih =>
      have hwe := hw e (List.mem_cons_self ..)
      obtain ⟨slots, hids, hchain, hslots⟩ := ih fun e' he' => hw e' (List.mem_cons_of_mem _ he')
      rcases handles_in_window hcall hwe with ⟨rfl, hnone, _⟩ | ⟨slot, hnext, hslot, rfl, hsome, _⟩
      · refine ⟨slots, ?_, hchain, hslots⟩
        rw [issuedIds, List.filterMap_cons_none hnone]
        exact hids
      · refine ⟨slot :: slots, ?_, List.isChain_cons_cons.mpr ⟨hnext, hchain⟩, ?_⟩
        · rw [issuedIds, List.filterMap_cons_some hsome, List.map_cons]
          exact congrArg _ hids
        · intro s hs
          rcases List.mem_cons.mp hs with rfl | hs
          · exact hslot
          · exact hslots s hs

/-- The ids of a run rise, whatever was issued before it. -/
theorem pairwise_issuedIds {g g' : Generator} {log : List Entry} (hrun : g.Serves log g')
    (hw : WithinWindow log) : (issuedIds log).Pairwise (· < ·) := by
  obtain ⟨slots, hids, hchain, hslots⟩ := slots_of_serves hrun hw
  have hbefore := (List.pairwise_cons.mp (Place.pairwise_before hchain)).2
  rw [hids]
  refine List.pairwise_map.mpr ((List.pairwise_map.mp hbefore).imp_of_mem ?_)
  intro s s' hs hs' h
  exact Slot.id_lt_id g.address (hslots s hs) (hslots s' hs') h

/-- Every call of a run is answered by the generator as the calls before it left it, at
the same address. -/
theorem handles_of_mem {g g' : Generator} {log : List Entry} (h : g.Serves log g') :
    ∀ e ∈ log, ∃ g₁ g₂ : Generator, g₁.address = g.address ∧ g₁.Handles e g₂ := by
  induction h with
  | nil => intro e he; cases he
  | @cons g g₁ g' e log hcall _ ih =>
      have haddress := address_of_handles hcall
      intro e' he'
      rcases List.mem_cons.mp he' with rfl | he'
      · exact ⟨g, g₁, rfl, hcall⟩
      · obtain ⟨g₂, g₃, h₂, h₃⟩ := ih e' he'
        exact ⟨g₂, g₃, h₂.trans haddress, h₃⟩

/-! ## A new generator -/

theorem val_of_check {role : Role} {id : Int} {part : Fin 32}
    (h : Address.check role id = .ok part) : (part.val : Int) = id := by
  rw [Address.check] at h
  split at h
  · next hrange =>
      cases h
      exact Int.toNat_of_nonneg hrange.1
  · cases h

theorem create_eq_ok {worker datacenter : Int} {g : Generator}
    (h : Generator.create worker datacenter = .ok g) :
    (g.address.worker.val : Int) = worker ∧ (g.address.datacenter.val : Int) = datacenter ∧
      g.last = { millis := -1, sequence := 0 } := by
  cases hw : Address.check .worker worker with
  | error e => simp [Generator.create, Address.ofIds, hw, bind, Except.bind] at h
  | ok w =>
      cases hd : Address.check .datacenter datacenter with
      | error e => simp [Generator.create, Address.ofIds, hw, hd, bind, Except.bind] at h
      | ok d =>
          simp only [Generator.create, Address.ofIds, hw, hd, bind, Except.bind] at h
          cases h
          exact ⟨val_of_check hw, val_of_check hd, rfl⟩

/-- The place that an id tells: its millisecond and its sequence. -/
def idPlace (id : Id) : Place :=
  { period := (Fields.decompose id).timestampMillis, index := (Fields.decompose id).sequence }

theorem idPlace_id {s : Slot} (address : Address) (h : InWindow s.millis) :
    idPlace (s.id address) = s.place := by
  rw [idPlace, Slot.decompose_id address h]
  rfl

/-- The slots of a new generator are counted: no reading in the window is in the
millisecond that it starts from. -/
theorem counted_of_serves {g g' : Generator} {log : List Entry}
    (hlast : g.last = { millis := -1, sequence := 0 }) (hrun : g.Serves log g')
    (hw : WithinWindow log) :
    ∃ slots : List Slot,
      issuedIds log = slots.map (Slot.id g.address) ∧ Place.Counted (slots.map Slot.place) ∧
      ∀ s ∈ slots, InWindow s.millis := by
  obtain ⟨slots, hids, hchain, hslots⟩ := slots_of_serves hrun hw
  refine ⟨slots, hids, Place.counted_of_chain hchain ?_, hslots⟩
  intro p hp
  obtain ⟨s, hs, rfl⟩ := List.mem_map.mp hp
  have hlow := (hslots s hs).1
  simp only [hlast, Slot.place, epochMillis] at hlow ⊢
  omega

/-- Every receipt of a run is for an id, and that id tells the millisecond of the last
reading that the call took. -/
theorem receipt_tells_last_reading {g g' : Generator} {log : List Entry}
    (hrun : g.Serves log g') (hw : WithinWindow log) {e : Entry} (he : e ∈ log) {r : Receipt}
    (hok : e.answer = .ok r) :
    ∃ id t, r.id? = some id ∧ e.readings.getLast? = some t ∧
      (Fields.decompose id).timestampMillis = t.unixMillis := by
  obtain ⟨g₁, g₂, _, hhandles⟩ := handles_of_mem hrun e he
  obtain ⟨slot, hreach, hfor⟩ := slot_of_ok hhandles hok
  have hslot := hreach.inWindow (hw e he)
  obtain ⟨t, hlast, hmillis⟩ := hreach.getLast?
  refine ⟨_, t, hfor.id?_eq (Slot.id_nonneg _ hslot), hlast, ?_⟩
  rw [Slot.decompose_id _ hslot, ← hmillis]
  rfl

/-- The law of a generator. Whatever its clock shows within the 41 bits of the time, and
however calls are refused or have to wait in between: every call that succeeds hands
out the id of its last reading, the ids rise, and those of one millisecond stand
together and carry the sequences from zero on without a gap, 4096 at most. -/
theorem ids_issued_in_order {worker datacenter : Int} {g g' : Generator} {log : List Entry}
    (hcreate : Generator.create worker datacenter = .ok g) (hrun : g.Serves log g')
    (hw : WithinWindow log) :
    (∀ e ∈ log, ∀ r, e.answer = .ok r →
      ∃ id t, r.id? = some id ∧ e.readings.getLast? = some t ∧
        (Fields.decompose id).timestampMillis = t.unixMillis) ∧
    (issuedIds log).Pairwise (· < ·) ∧ (∀ id ∈ issuedIds log, 0 ≤ id) ∧
    ∀ m, ∃ before after k,
      (issuedIds log).map idPlace = before ++ (List.range k).map (fun i => ⟨m, i⟩) ++ after ∧
      (∀ p ∈ before, p.period < m) ∧ (∀ p ∈ after, m < p.period) ∧ k ≤ 4096 := by
  obtain ⟨_, _, hlast⟩ := create_eq_ok hcreate
  obtain ⟨slots, hids, hcounted, hslots⟩ := counted_of_serves hlast hrun hw
  refine ⟨fun e he r hok => receipt_tells_last_reading hrun hw he hok,
    pairwise_issuedIds hrun hw, ?_, ?_⟩
  · intro id hid
    rw [hids] at hid
    obtain ⟨s, hs, rfl⟩ := List.mem_map.mp hid
    exact Slot.id_nonneg g.address (hslots s hs)
  · intro m
    have hplaces : (issuedIds log).map idPlace = slots.map Slot.place := by
      rw [hids, List.map_map]
      exact List.map_congr_left fun s hs => idPlace_id g.address (hslots s hs)
    rw [hplaces]
    apply hcounted.block
    intro p hp
    obtain ⟨s, _, rfl⟩ := List.mem_map.mp hp
    have := s.sequence.isLt
    simp only [Slot.place]
    omega

/-- A clock that goes back two milliseconds and returns: the second call is refused, and
the third, which asks for a short form, goes on where the first one was. -/
theorem ids_issued_in_order_around_refusal :
    ∃ (g g' : Generator) (log : List Entry),
      Generator.create 3 7 = .ok g ∧ g.Serves log g' ∧ WithinWindow log ∧
        log.map (fun e => e.answer.toOption.isSome) = [true, false, true] ∧
        (issuedIds log).Pairwise (· < ·) := by
  let t : Instant := .ofUnixMillis (epochMillis + 5)
  let early : Instant := .ofUnixMillis (epochMillis + 3)
  let g (last : Slot) : Generator := { address := { worker := 3, datacenter := 7 }, last }
  let fresh := g { millis := -1, sequence := 0 }
  let once := g { millis := epochMillis + 5, sequence := 0 }
  let twice := g { millis := epochMillis + 5, sequence := 1 }
  let log : List Entry :=
    [{ answer := .ok (.number (once.last.id once.address)), readings := [t] },
     { answer := .error ⟨2⟩, readings := [early] },
     { answer := .ok (.short (Base62.encode (twice.last.id twice.address))), readings := [t] }]
  have h₁ : fresh.Answers [t] (.ok (once.last.id once.address)) once :=
    .issued (.later (by decide))
  have h₂ : once.Answers [early] (.error ⟨2⟩) once := .refused (by decide)
  have h₃ : once.Answers [t] (.ok (twice.last.id twice.address)) twice :=
    .issued (.same (by decide) (by decide))
  have hcreate : Generator.create 3 7 = .ok fresh := rfl
  have hrun : fresh.Serves log twice :=
    .cons (handles_of_answers h₁).1 (.cons (handles_of_answers h₂).1
      (.cons (handles_of_answers h₃).2 .nil))
  have hw : WithinWindow log := by
    intro e he u hu
    simp only [log, List.mem_cons, List.not_mem_nil, or_false] at he
    rcases he with rfl | rfl | rfl <;> rw [List.mem_singleton.mp hu] <;> decide
  exact ⟨fresh, twice, log, hcreate, hrun, hw, rfl, (ids_issued_in_order hcreate hrun hw).2.1⟩

end IdMint.Snowflake
