import IdMint.Proofs.HexText
import IdMint.Proofs.OwnAddress
import Mathlib.Logic.Relation

/-!
# One interface stands for its machine

Interfaces come and go: a machine gets a bridge or a tunnel, or the loopback is listed in
another place. The address in its fingerprint is that of the first interface which is
eligible, so what is not eligible may be put in or taken out anywhere, and behind an
eligible one anything may. These are all the changes that do not matter. By them, every list
comes down to its first eligible interface, or to nothing, and two lists that come down
to the same are changed into one another.

The text of an address is cut at its colons into the bytes, so an address is known by its
text. The text is empty only where there is no address. So a fingerprint tells the
address of the first eligible interface, and it tells nothing else of the list.
-/

namespace IdMint

/-! ## An address and its text -/

/-- Cut at its colons, the text gives the bytes one by one, each as two digits in lower
case. -/
def SpellsInColons (text bytes : Bytes) : Prop :=
  List.Forall₂ (fun piece b => (∀ c ∈ piece, c ∈ Hex.alphabet) ∧ Hex.Spells piece [b])
    (text.splitOn ':'.toUInt8) bytes

theorem colon_not_mem_ofByte (b : UInt8) : ':'.toUInt8 ∉ Hex.ofByte b := by
  intro h
  rw [← Hex.ofBytes_singleton] at h
  exact absurd (Hex.ofBytes_mem_alphabet [b] _ h) (by decide)

theorem spellsInColons_iff_splitOn {text bytes : Bytes} :
    SpellsInColons text bytes ↔ text.splitOn ':'.toUInt8 = bytes.map Hex.ofByte := by
  have hpiece : ∀ (piece : Bytes) (b : UInt8),
      ((∀ c ∈ piece, c ∈ Hex.alphabet) ∧ Hex.Spells piece [b]) ↔ piece = Hex.ofByte b := by
    intro piece b
    rw [← Hex.eq_ofBytes_iff, Hex.ofBytes_singleton]
  simp only [SpellsInColons, hpiece]
  rw [← List.forall₂_map_right_iff, List.forall₂_eq_eq_eq]

theorem spellsInColons_iff {text bytes : Bytes} :
    SpellsInColons text bytes ↔ bytes ≠ [] ∧ text = hardwareText bytes := by
  have hcolon : ascii ":" = [':'.toUInt8] := rfl
  rw [spellsInColons_iff_splitOn, hardwareText, hcolon]
  constructor
  · intro h
    refine ⟨?_, ?_⟩
    · rintro rfl
      exact List.splitOn_ne_nil _ _ h
    · rw [← h, List.intercalate_splitOn]
  · rintro ⟨hsome, rfl⟩
    apply List.splitOn_intercalate
    · intro piece hpiece
      obtain ⟨b, -, rfl⟩ := List.mem_map.mp hpiece
      exact colon_not_mem_ofByte b
    · simpa using hsome

theorem length_hardwareText (bytes : Bytes) :
    (hardwareText bytes).length = 3 * bytes.length - 1 := by
  induction bytes with
  | nil => rfl
  | cons b bytes ih =>
      cases bytes with
      | nil => rfl
      | cons c bytes =>
          rw [hardwareText, List.map_cons] at ih
          rw [hardwareText, List.map_cons, List.map_cons, List.intercalate_cons_cons,
            List.length_append, ih]
          show 3 + _ = _
          simp only [List.length_cons]
          omega

theorem SpellsInColons.eq_iff {text text' bytes bytes' : Bytes} (h : SpellsInColons text bytes)
    (h' : SpellsInColons text' bytes') : text = text' ↔ bytes = bytes' := by
  constructor
  · rintro rfl
    have hpieces : bytes.map Hex.ofByte = bytes'.map Hex.ofByte := by
      rw [← spellsInColons_iff_splitOn.mp h, spellsInColons_iff_splitOn.mp h']
    have hsame : Hex.ofBytes bytes = Hex.ofBytes bytes' := congrArg List.flatten hpieces
    exact (Hex.spells_ofBytes bytes).unique (hsame ▸ Hex.spells_ofBytes bytes')
  · rintro rfl
    rw [(spellsInColons_iff.mp h).2, (spellsInColons_iff.mp h').2]

theorem not_spellsInColons_nil (bytes : Bytes) : ¬ SpellsInColons [] bytes := by
  intro h
  obtain ⟨hsome, htext⟩ := spellsInColons_iff.mp h
  have hlength := congrArg List.length htext
  have hpos := List.length_pos_of_ne_nil hsome
  rw [length_hardwareText, List.length_nil] at hlength
  omega

/-! ## The first eligible interface -/

/-- The interface is eligible, and none in front of it is. -/
def IsFirstEligible (interfaces : List Interface) (i : Interface) : Prop :=
  i.Eligible ∧ ∃ before after, interfaces = before ++ i :: after ∧ ∀ k ∈ before, ¬ k.Eligible

theorem find?_eligible_eq_some_iff {interfaces : List Interface} {i : Interface} :
    interfaces.find? (fun k => k.Eligible) = some i ↔ IsFirstEligible interfaces i := by
  simp [List.find?_eq_some_iff_append, IsFirstEligible]

theorem find?_eligible_eq_none_iff {interfaces : List Interface} :
    interfaces.find? (fun k => k.Eligible) = none ↔ ∀ i ∈ interfaces, ¬ i.Eligible := by
  simp

theorem IsFirstEligible.spells {interfaces : List Interface} {i : Interface}
    (h : IsFirstEligible interfaces i) :
    SpellsInColons (hardwareAddress interfaces) i.hardware := by
  rw [hardwareAddress, find?_eligible_eq_some_iff.mpr h]
  obtain ⟨⟨-, -, -, hsome⟩, -⟩ := h
  exact spellsInColons_iff.mpr ⟨hsome, rfl⟩

theorem exists_isFirstEligible_or_none (interfaces : List Interface) :
    (∃ i, IsFirstEligible interfaces i) ∨ ∀ i ∈ interfaces, ¬ i.Eligible := by
  cases hfirst : interfaces.find? (fun k => k.Eligible) with
  | none => exact .inr (find?_eligible_eq_none_iff.mp hfirst)
  | some i => exact .inl ⟨i, find?_eligible_eq_some_iff.mp hfirst⟩

theorem hardwareAddress_eq_nil_iff {interfaces : List Interface} :
    hardwareAddress interfaces = [] ↔ ∀ i ∈ interfaces, ¬ i.Eligible := by
  constructor
  · intro hnil
    rcases exists_isFirstEligible_or_none interfaces with ⟨i, hi⟩ | hnone
    · exact absurd (hnil ▸ hi.spells) (not_spellsInColons_nil i.hardware)
    · exact hnone
  · intro h
    rw [hardwareAddress, find?_eligible_eq_none_iff.mpr h]

/-- What the text of a list spells is the address of its first eligible interface. -/
theorem spells_hardwareAddress_iff {interfaces : List Interface} {bytes : Bytes} :
    SpellsInColons (hardwareAddress interfaces) bytes ↔
      ∃ i, IsFirstEligible interfaces i ∧ i.hardware = bytes := by
  constructor
  · intro h
    rcases exists_isFirstEligible_or_none interfaces with ⟨i, hi⟩ | hnone
    · exact ⟨i, hi, (hi.spells.eq_iff h).mp rfl⟩
    · rw [hardwareAddress_eq_nil_iff.mpr hnone] at h
      exact absurd h (not_spellsInColons_nil bytes)
  · rintro ⟨i, hi, rfl⟩
    exact hi.spells

/-! ## Changes that do not matter -/

inductive Change : List Interface → List Interface → Prop
  | insert {i : Interface} (h : ¬ i.Eligible) (before after : List Interface) :
      Change (before ++ after) (before ++ i :: after)
  | remove {i : Interface} (h : ¬ i.Eligible) (before after : List Interface) :
      Change (before ++ i :: after) (before ++ after)
  | behind {i : Interface} (h : i.Eligible) (before after after' : List Interface) :
      Change (before ++ i :: after) (before ++ i :: after')

/-- Any number of such changes, one after the other. -/
abbrev Changes : List Interface → List Interface → Prop := Relation.ReflTransGen Change

theorem Change.find?_eq {l l' : List Interface} (h : Change l l') :
    l'.find? (fun k => k.Eligible) = l.find? (fun k => k.Eligible) := by
  cases h with
  | insert h before after => simp [List.find?_append, h]
  | remove h before after => simp [List.find?_append, h]
  | behind h before after after' => simp [List.find?_append, h]

theorem Changes.find?_eq {l l' : List Interface} (h : Changes l l') :
    l'.find? (fun k => k.Eligible) = l.find? (fun k => k.Eligible) := by
  induction h with
  | refl => rfl
  | tail _ hlast ih => rw [hlast.find?_eq, ih]

theorem changes_remove {before : List Interface} (h : ∀ k ∈ before, ¬ k.Eligible)
    (after : List Interface) : Changes (before ++ after) after := by
  induction before with
  | nil => exact .refl
  | cons k before ih =>
      obtain ⟨hk, hbefore⟩ := List.forall_mem_cons.mp h
      exact .head (.remove hk [] (before ++ after)) (ih hbefore)

theorem changes_insert {before : List Interface} (h : ∀ k ∈ before, ¬ k.Eligible)
    (after : List Interface) : Changes after (before ++ after) := by
  induction before with
  | nil => exact .refl
  | cons k before ih =>
      obtain ⟨hk, hbefore⟩ := List.forall_mem_cons.mp h
      exact .tail (ih hbefore) (.insert hk [] (before ++ after))

/-- Lists are changed into one another exactly if they have the same first eligible
interface, or both have none. -/
theorem changes_iff {l l' : List Interface} :
    Changes l l' ↔ ∀ i, IsFirstEligible l i ↔ IsFirstEligible l' i := by
  constructor
  · intro h i
    rw [← find?_eligible_eq_some_iff, ← find?_eligible_eq_some_iff, h.find?_eq]
  · intro h
    rcases exists_isFirstEligible_or_none l with ⟨i, hi⟩ | hnone
    · obtain ⟨heligible, before, after, rfl, hbefore⟩ := hi
      obtain ⟨-, before', after', rfl, hbefore'⟩ :=
        (h i).mp ⟨heligible, before, after, rfl, hbefore⟩
      exact (changes_remove hbefore _).trans
        (.head (.behind heligible [] after after') (changes_insert hbefore' _))
    · have hnone' : ∀ i ∈ l', ¬ i.Eligible := by
        rcases exists_isFirstEligible_or_none l' with ⟨i, hi⟩ | hnone'
        · obtain ⟨heligible, before, after, rfl, -⟩ := (h i).mpr hi
          exact absurd heligible (hnone i (by simp))
        · exact hnone'
      have hdown := changes_remove hnone []
      have hup := changes_insert hnone' []
      rw [List.append_nil] at hdown hup
      exact hdown.trans hup

/-! ## What the fingerprint tells of the interfaces -/

def Machine.withInterfaces (m : Machine) (interfaces : List Interface) : Machine :=
  { m with interfaces := some interfaces }

theorem fingerprint_withInterfaces_eq_iff (m : Machine) {l l' : List Interface} :
    (m.withInterfaces l).fingerprint = (m.withInterfaces l').fingerprint ↔
      hardwareAddress l = hardwareAddress l' := by
  constructor
  · intro h
    exact congrArg Fingerprint.macAddress h
  · intro h
    simp only [Machine.fingerprint, Machine.withInterfaces, Option.getD_some, h]

theorem hardwareAddress_eq_iff {l l' : List Interface} :
    hardwareAddress l = hardwareAddress l' ↔
      ∀ bytes, (∃ i, IsFirstEligible l i ∧ i.hardware = bytes) ↔
        ∃ i, IsFirstEligible l' i ∧ i.hardware = bytes := by
  simp only [← spells_hardwareAddress_iff]
  constructor
  · intro h bytes
    rw [h]
  · intro h
    rcases exists_isFirstEligible_or_none l with ⟨i, hi⟩ | hnone
    · exact (hi.spells.eq_iff ((h _).mp hi.spells)).mpr rfl
    · rcases exists_isFirstEligible_or_none l' with ⟨i, hi⟩ | hnone'
      · exact (((h _).mpr hi.spells).eq_iff hi.spells).mpr rfl
      · rw [hardwareAddress_eq_nil_iff.mpr hnone, hardwareAddress_eq_nil_iff.mpr hnone']

/-! ## Main statement -/

/-- The text in the fingerprint spells the address of the first eligible interface and nothing
else, and it is empty exactly where no interface is eligible. A spelled text and its address
determine each other, and the text has three characters for every byte, less one. Inserting and
removing what is not eligible, and replacing what is behind an eligible interface, lead from
a list to all that have the same first eligible interface and to no other. So they change
neither the fingerprint of a machine, which tells no more than that one address of its
interfaces, nor the two ids that are derived from it, whatever the clock. -/
theorem first_eligible_interface_stands_for_machine :
    (∀ (interfaces : List Interface) (bytes : Bytes),
      SpellsInColons (hardwareAddress interfaces) bytes ↔
        ∃ i, IsFirstEligible interfaces i ∧ i.hardware = bytes) ∧
    (∀ interfaces : List Interface,
      hardwareAddress interfaces = [] ↔ ∀ i ∈ interfaces, ¬ i.Eligible) ∧
    (∀ text text' bytes bytes' : Bytes, SpellsInColons text bytes → SpellsInColons text' bytes' →
      text.length = 3 * bytes.length - 1 ∧ (text = text' ↔ bytes = bytes')) ∧
    (∀ l l' : List Interface, Changes l l' ↔ ∀ i, IsFirstEligible l i ↔ IsFirstEligible l' i) ∧
    ∀ (m : Machine) (l l' : List Interface),
      ((m.withInterfaces l).fingerprint = (m.withInterfaces l').fingerprint ↔
        ∀ bytes, (∃ i, IsFirstEligible l i ∧ i.hardware = bytes) ↔
          ∃ i, IsFirstEligible l' i ∧ i.hardware = bytes) ∧
      (Changes l l' → (m.withInterfaces l).fingerprint = (m.withInterfaces l').fingerprint ∧
        ∃ identity : Identity, ∀ (κ : Type) [Source κ Instant] (clock clock' : Supply κ),
          machineIdentity (m.withInterfaces l).fingerprint clock = some (identity, clock) ∧
          machineIdentity (m.withInterfaces l').fingerprint clock' = some (identity, clock')) := by
  refine ⟨fun _ _ => spells_hardwareAddress_iff, fun _ => hardwareAddress_eq_nil_iff,
    fun text text' bytes bytes' h h' => ⟨?_, h.eq_iff h'⟩, fun _ _ => changes_iff,
    fun m l l' => ⟨?_, fun hchanges => ?_⟩⟩
  · rw [(spellsInColons_iff.mp h).2, length_hardwareText]
  · rw [fingerprint_withInterfaces_eq_iff, hardwareAddress_eq_iff]
  · have hsame : (m.withInterfaces l).fingerprint = (m.withInterfaces l').fingerprint := by
      rw [fingerprint_withInterfaces_eq_iff, hardwareAddress, hardwareAddress, hchanges.find?_eq]
    refine ⟨hsame, (m.withInterfaces l').ownIdentity, fun κ _ clock clock' => ⟨?_, ?_⟩⟩
    · rw [hsame, machineIdentity_eq]
    · rw [machineIdentity_eq]

/-- The loopback goes, and a tunnel in front and a card behind come. -/
theorem first_eligible_interface_stands_for_machine_as_others_come_and_go :
    let machine : Machine :=
      { hostname := none, interfaces := none, outboundAddress := none, name := none
        processId := 1 }
    let card : Interface :=
      { family := .link, isUp := true, isLoopback := false
        hardware := [0x02, 0x42, 0xac, 0x11, 0x00, 0x02] }
    let before := [{ card with isLoopback := true }, card]
    let after := [{ card with hardware := [] }, card, { card with hardware := [0xff] }]
    (machine.withInterfaces before).fingerprint = (machine.withInterfaces after).fingerprint ∧
    SpellsInColons (hardwareAddress after) card.hardware ∧
    hardwareAddress after = ascii "02:42:ac:11:00:02" := by
  intro machine card before after
  obtain ⟨hspells, -, -, -, hmachine⟩ := first_eligible_interface_stands_for_machine
  have hcard : card.Eligible := by decide
  have hchanges : Changes before after :=
    .head (.remove (by decide) [] _) (.head (.insert (by decide) [] _)
      (.single (.behind hcard [_] [] _)))
  have hfirst : IsFirstEligible after card := by
    refine ⟨hcard, [_], [_], rfl, ?_⟩
    decide
  exact ⟨((hmachine machine before after).2 hchanges).1, (hspells _ _).mpr ⟨card, hfirst, rfl⟩, rfl⟩

end IdMint
