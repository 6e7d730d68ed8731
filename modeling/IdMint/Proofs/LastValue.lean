import IdMint.Command.Outcome
import IdMint.Proofs.Arguments
import IdMint.Proofs.Decimal

/-!
# The last value given is the one that counts

An option may be given many times, and its handler is called each time. If the option is
for one quantity of the configuration and no other option touches that, every call
overwrites what the one before it wrote, so the last value is what the quantity comes to.
Handlers that refuse a value leave the quantity alone as a rule, and then this is so if
none of them did.

Which values are given is a matter of the pieces and not of the arguments alone: the name
of the option may stand as the value of another one, or behind the mark, and then nothing
is given.
-/

namespace IdMint.Command

variable {γ α : Type}

/-- The value that a piece gives for the option of a name. -/
def Piece.valueFor? (name : Bytes) : Piece γ → Option Bytes
  | valued flag value => if flag.name = name then some value else none
  | _ => none

/-- The last of the values is read as the quantity. Without values it is what it was. -/
def LastReads (reads : Bytes → α → Prop) (start : α) (values : List Bytes) (a : α) : Prop :=
  values.getLast?.elim (a = start) fun value => reads value a

theorem LastReads.cons {reads : Bytes → α → Prop} {start next a : α} {value : Bytes}
    {values : List Bytes} (hvalue : reads value next) (h : LastReads reads next values a) :
    LastReads reads start (value :: values) a := by
  rw [LastReads, List.getLast?_cons]
  rw [LastReads] at h
  cases hlast : values.getLast? with
  | none =>
      rw [hlast] at h
      obtain rfl : a = next := h
      exact hvalue
  | some last =>
      rw [hlast] at h
      exact h

theorem LastReads.unique {reads : Bytes → α → Prop}
    (hreads : ∀ value a b, reads value a → reads value b → a = b) {start a b : α}
    {values : List Bytes} (ha : LastReads reads start values a)
    (hb : LastReads reads start values b) : a = b := by
  rw [LastReads] at ha hb
  cases hlast : values.getLast? with
  | none =>
      rw [hlast] at ha hb
      exact Eq.trans ha (Eq.symm hb)
  | some value =>
      rw [hlast] at ha hb
      exact hreads value a b ha hb

/-- What a flag does to a quantity that the option of a name is for, as long as its handler
answers in a certain way. -/
inductive Flag.Minds (name : Bytes) (get : γ → α) (reads : Bytes → α → Prop)
    (P : Handled γ → Prop) (flag : Flag γ) : Prop
  | sets (hname : flag.name = name) (htakes : flag.takesValue = true)
      (h : ∀ value config, P (flag.handle value config) →
        reads value (get (flag.handle value config).config))
  | keeps (hname : flag.name ≠ name)
      (h : ∀ value config, get (flag.handle value config).config = get config)

section

variable {name : String} {description : String} {parse? : Bytes → Option α} {set : α → γ → γ}

theorem valueFlag_handle_some {value : Bytes} {a : α} (h : parse? value = some a) (config : γ) :
    (valueFlag name description parse? set).handle value config = .accepted (set a config) := by
  simp only [valueFlag, h]

theorem valueFlag_handle_none {value : Bytes} (h : parse? value = none) (config : γ) :
    (valueFlag name description parse? set).handle value config
      = .rejected config (invalidValue name value) := by
  simp only [valueFlag, h]

theorem valueFlag_keeps {P : γ → Prop} (hset : ∀ a config, P config → P (set a config))
    (value : Bytes) {config : γ} (hconfig : P config) :
    P ((valueFlag name description parse? set).handle value config).config := by
  cases hparse : parse? value with
  | none =>
      rw [valueFlag_handle_none hparse]
      exact hconfig
  | some a =>
      rw [valueFlag_handle_some hparse]
      exact hset a config hconfig

variable {β : Type} {get : γ → β} {reads : Bytes → β → Prop}

theorem minds_of_valueFlag_sets
    (h : ∀ value a config, parse? value = some a → reads value (get (set a config))) :
    (valueFlag name description parse? set).Minds (ascii name) get reads
      (Handled.isAccepted · = true) := by
  refine .sets rfl rfl fun value config haccepted => ?_
  cases hparse : parse? value with
  | none =>
      rw [valueFlag_handle_none hparse] at haccepted
      cases haccepted
  | some a =>
      rw [valueFlag_handle_some hparse]
      exact h value a config hparse

theorem minds_of_valueFlag_keeps {other : Bytes} {P : Handled γ → Prop}
    (hname : ascii name ≠ other) (h : ∀ a config, get (set a config) = get config) :
    (valueFlag name description parse? set).Minds other get reads P := by
  refine .keeps hname fun value config => ?_
  refine valueFlag_keeps (P := fun c => get c = get config) ?_ value rfl
  intro a c hc
  rw [h a c, hc]

end

theorem Stands.mem {flags : List (Flag γ)} {flag : Flag γ} (h : Stands flags flag) :
    flag ∈ flags := mem_of_findFlag? h.findFlag?

/-- Of the pieces only those count that give a value for the option, and of those the last. -/
theorem lastReads_of_wellCut {name : Bytes} {get : γ → α} {reads : Bytes → α → Prop}
    {P : Handled γ → Prop} {flags : List (Flag γ)}
    (hflags : ∀ flag ∈ flags, flag.Minds name get reads P)
    {pieces : List (Piece γ)} (h : WellCut flags pieces) {config : γ}
    (hanswers : ∀ answer ∈ answers config (pieces.filterMap Piece.call?), P answer) :
    LastReads reads (get config) (pieces.filterMap (Piece.valueFor? name))
      (get (configAfter config (pieces.filterMap Piece.call?))) := by
  -- Along the cut, for every configuration: what a call leaves is where the rest starts.
  induction h generalizing config with
  | nil => rfl
  | separator rest =>
      have hnone : ∀ {β : Type} (f : Piece γ → Option β), (∀ a, f (.positional a) = none) →
          (rest.map Piece.positional).filterMap f = [] := by
        intro β f hf
        rw [List.filterMap_map, List.filterMap_eq_nil_iff]
        exact fun a _ => hf a
      show LastReads reads (get config) ((rest.map .positional).filterMap (Piece.valueFor? name))
        (get (configAfter config ((rest.map .positional).filterMap Piece.call?)))
      rw [hnone _ fun _ => rfl, hnone _ fun _ => rfl]
      rfl
  | @plain flag pieces hflag htakes _ ih =>
      have hrest := ih fun answer hanswer => hanswers answer (List.mem_cons_of_mem _ hanswer)
      cases hflags flag hflag.mem with
      | sets _ hvalue =>
          rw [htakes] at hvalue
          cases hvalue
      | keeps _ hkeeps =>
          rw [hkeeps] at hrest
          exact hrest
  | @valued flag value pieces hflag _ _ ih =>
      have hrest := ih fun answer hanswer => hanswers answer (List.mem_cons_of_mem _ hanswer)
      cases hflags flag hflag.mem with
      | sets hname _ hsets =>
          have hgiven : Piece.valueFor? name (.valued flag value) = some value := if_pos hname
          rw [List.filterMap_cons_some hgiven]
          exact .cons (hsets value config (hanswers _ (List.mem_cons_self ..))) hrest
      | keeps hname hkeeps =>
          have hnot : Piece.valueFor? name (.valued flag value) = none := if_neg hname
          rw [List.filterMap_cons_none hnot]
          rw [hkeeps] at hrest
          exact hrest
  | dangling => rfl
  | unknown _ _ _ _ _ ih => exact ih hanswers
  | positional _ _ _ ih => exact ih hanswers

/-! ## What the arguments give -/

/-- The arguments give this for the option of a name: what the last value for it is read as, or
the start if there is none. -/
def Gives (flags : List (Flag γ)) (arguments : List Bytes) (name : Bytes)
    (reads : Bytes → α → Prop) (start a : α) : Prop :=
  ∃ pieces : List (Piece γ), pieces.flatMap Piece.arguments = arguments ∧ WellCut flags pieces ∧
    LastReads reads start (pieces.filterMap (Piece.valueFor? name)) a

section

variable {flags : List (Flag γ)} {arguments : List Bytes} {name : Bytes}
  {reads : Bytes → α → Prop}

/-- There is one cut. -/
theorem Gives.unique (hreads : ∀ value a b, reads value a → reads value b → a = b) {start a b : α}
    (ha : Gives flags arguments name reads start a)
    (hb : Gives flags arguments name reads start b) : a = b := by
  obtain ⟨pieces, rfl, hcut, hlast⟩ := ha
  obtain ⟨others, hothers, hcut', hlast'⟩ := hb
  obtain rfl : others = pieces := by rw [← cut_flatMap hcut', hothers, cut_flatMap hcut]
  exact LastReads.unique hreads hlast hlast'

theorem gives_of_answers {get : γ → α} {P : Handled γ → Prop}
    (hflags : ∀ flag ∈ flags, flag.Minds name get reads P) {config : γ}
    (hanswers : ∀ answer ∈ answers config ((cut flags arguments).filterMap Piece.call?),
      P answer) :
    Gives flags arguments name reads (get config)
      (get (parseOptions flags arguments config).config) := by
  have hcut := wellCut_cut flags arguments
  rw [parseOptions_eq_summary]
  exact ⟨_, flatMap_cut flags arguments, hcut, lastReads_of_wellCut hflags hcut hanswers⟩

theorem gives_of_isFine {get : γ → α}
    (hflags : ∀ flag ∈ flags, flag.Minds name get reads (Handled.isAccepted · = true))
    {config : γ} (hfine : (parseOptions flags arguments config).isFine = true) :
    Gives flags arguments name reads (get config)
      (get (parseOptions flags arguments config).config) := by
  rw [parseOptions_eq_summary] at hfine
  exact gives_of_answers hflags (isFine_summary.mp hfine).2

end

end IdMint.Command
