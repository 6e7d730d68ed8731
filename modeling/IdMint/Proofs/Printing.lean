import IdMint.Command.Program
import IdMint.Proofs.JsonText
import IdMint.Proofs.NumberText

/-!
# What can be printed

A document that is all ids, keys and words of our own is ASCII, and is printed in any case.
That is so for ids and for masked values. A flow number bears its tag and a fingerprint the
name of its host, and what comes from outside is not always UTF-8: these two documents are
printed exactly if the texts that came from outside are.

Of a document that is printed all is on standard output. Of one that is not, nothing is, and
the process has no exit code of its own.
-/

namespace IdMint

open Utf8

/-! ## Texts of our own -/

namespace Utf8

theorem isText_upper_iff {text : Bytes} : IsText (Ascii.upper text) ↔ IsText text := by
  rw [Ascii.upper, List.map_eq_flatMap]
  refine isText_flatMap_iff (fun b hb => ⟨List.cons_ne_nil _ _, ?_⟩) fun b hb => ?_
  · have hcapital := Ascii.capital_upperByte b
    rw [Ascii.Capital] at hcapital
    refine List.forall_mem_singleton.mpr ?_
    split at hcapital
    · omega
    · rwa [hcapital]
  · have hcapital := Ascii.capital_upperByte b
    rw [Ascii.Capital, if_neg (by omega)] at hcapital
    rw [hcapital]

theorem IsAscii.intercalate {separator : Bytes} (hseparator : IsAscii separator)
    {parts : List Bytes} (h : ∀ part ∈ parts, IsAscii part) :
    IsAscii (separator.intercalate parts) := by
  induction parts with
  | nil => exact List.forall_mem_nil _
  | cons part parts ih =>
      obtain ⟨hpart, hparts⟩ := List.forall_mem_cons.mp h
      by_cases hnone : parts = []
      · rw [hnone, List.intercalate_singleton]
        exact hpart
      · rw [List.intercalate_cons_of_ne_nil hnone]
        exact (hpart.append hseparator).append (ih hparts)

theorem isAscii_of_mem_alphabet {text : Bytes} (h : ∀ b ∈ text, b ∈ Hex.alphabet) :
    IsAscii text := by
  have hall : IsAscii Hex.alphabet := by decide
  exact fun b hb => hall b (h b hb)

end Utf8

theorem isAscii_encode (id : Id) : IsAscii (Base62.encode id) := by
  intro b hb
  obtain ⟨d, hd, rfl⟩ := List.mem_map.mp hb
  have hall : ∀ d ∈ List.range 62, (Base62.digitByte d).toNat ≤ 0x7f := by decide
  exact hall d (List.mem_range.mpr (Numeral.digits_lt (by decide) _ d hd))

theorem isAscii_format (key : Int64) : IsAscii (Key.format key) := by
  have hmark : IsAscii (ascii "0x") := by decide
  exact hmark.append (isAscii_of_mem_alphabet (Hex.ofUInt64_mem_alphabet _))

theorem isAscii_hardwareText (hardware : Bytes) : IsAscii (hardwareText hardware) := by
  refine IsAscii.intercalate (by decide) fun part hpart => ?_
  obtain ⟨b, _, rfl⟩ := List.mem_map.mp hpart
  rw [← Hex.ofBytes_singleton]
  exact isAscii_of_mem_alphabet (Hex.ofBytes_mem_alphabet _)

theorem isAscii_dottedText (address : List UInt8) : IsAscii (dottedText address) := by
  refine IsAscii.intercalate (by decide) fun part hpart => ?_
  obtain ⟨b, _, rfl⟩ := List.mem_map.mp hpart
  exact Json.isAscii_ofNat _

theorem isAscii_padded (width : Nat) (n : Int) : IsAscii (Decimal.padded width n) := by
  have hzero : ∀ count, IsAscii (List.replicate count '0'.toUInt8) := by
    intro count b hb
    rw [List.eq_of_mem_replicate hb]
    decide
  exact (hzero _).append (Json.isAscii_ofInt n)

theorem Flow.Number.isText_render {n : Flow.Number} (h : IsText n.tag) : IsText n.render := by
  have hdate := (Json.isAscii_of_shows n.instant.written_compact.shows).isText
  have hpadded : ∀ width m, IsText (Decimal.padded width m) :=
    fun width m => (isAscii_padded width m).isText
  exact ((((isText_upper_iff.mpr h).append hdate).append (hpadded _ _)).append
    (hpadded _ _)).append (hpadded _ _)

/-- The names that the machine goes by are UTF-8: that of the host, and that of the platform. -/
def Fingerprint.IsUtf8 (f : Fingerprint) : Prop := IsText f.hostname ∧ IsText f.platform

instance (f : Fingerprint) : Decidable f.IsUtf8 := inferInstanceAs (Decidable (_ ∧ _))

/-- The other facts of a fingerprint are written by ourselves. -/
theorem Machine.isAscii_addresses (m : Machine) :
    IsAscii m.fingerprint.macAddress ∧ IsAscii m.fingerprint.localIp ∧
      IsAscii m.fingerprint.processId := by
  refine ⟨?_, isAscii_dottedText _, Json.isAscii_ofInt _⟩
  show IsAscii (hardwareAddress _)
  rw [hardwareAddress]
  split
  · exact isAscii_hardwareText _
  · exact List.forall_mem_nil _

namespace Command

open Json

/-! ## Documents -/

theorem isAscii_name (origin : Origin) : IsAscii origin.name := by
  cases origin <;> decide

theorem isPrintable_members_append {front back : List (Bytes × Json)}
    (hfront : (Json.members front).IsPrintable) (hback : (Json.members back).IsPrintable) :
    (Json.members (front ++ back)).IsPrintable := by
  rw [isPrintable_members_iff] at hfront hback ⊢
  exact List.forall_mem_append.mpr ⟨hfront, hback⟩

theorem isPrintable_member_cons_iff {name : String} (hname : IsText (ascii name)) {value : Json}
    {entries : List (Bytes × Json)} :
    (Json.members (member name value :: entries)).IsPrintable ↔
      value.IsPrintable ∧ (Json.members entries).IsPrintable := by
  rw [isPrintable_members_iff, isPrintable_members_iff, List.forall_mem_cons]
  exact and_congr_left' (and_iff_right hname)

theorem isPrintable_no_members : (Json.members []).IsPrintable := List.forall_mem_nil _

theorem isPrintable_datacenterMembers (i : Identity) :
    (Json.members (datacenterMembers i)).IsPrintable := by
  rw [datacenterMembers, isPrintable_member_cons_iff (by decide),
    isPrintable_member_cons_iff (by decide), isPrintable_text_iff]
  exact ⟨isPrintable_int _, (isAscii_name _).isText, isPrintable_no_members⟩

theorem isPrintable_workerMembers (i : Identity) :
    (Json.members (workerMembers i)).IsPrintable := by
  rw [workerMembers, isPrintable_member_cons_iff (by decide),
    isPrintable_member_cons_iff (by decide), isPrintable_text_iff]
  exact ⟨isPrintable_int _, (isAscii_name _).isText, isPrintable_no_members⟩

theorem isPrintable_show (form : IdForm) (id : Id) : (form.show id).IsPrintable := by
  cases form with
  | number => exact isPrintable_int _
  | short => exact isPrintable_text_iff.mpr (isAscii_encode id).isText
  | explained =>
      rw [IdForm.show, isPrintable_members_iff]
      simp only [member, List.forall_mem_cons, isPrintable_int, and_true]
      exact ⟨by decide, by decide, by decide, by decide, by decide, List.forall_mem_nil _⟩

/-- Ids can always be printed. -/
theorem isPrintable_ids (batch : IdBatch) : batch.toJson.IsPrintable := by
  refine isPrintable_members_append (isPrintable_datacenterMembers _) ?_
  rw [isPrintable_member_cons_iff (by decide), isPrintable_list_iff]
  refine ⟨List.forall_mem_map.mpr fun id _ => isPrintable_show batch.form id, ?_⟩
  exact isPrintable_workerMembers _

/-- And so can masked values. -/
theorem isPrintable_report (report : Obfuscation.Report) : (reportJson report).IsPrintable := by
  rw [reportJson, isPrintable_member_cons_iff (by decide), isPrintable_member_cons_iff (by decide),
    isPrintable_text_iff, isPrintable_list_iff]
  refine ⟨(isAscii_format _).isText, List.forall_mem_map.mpr fun entry _ => ?_,
    isPrintable_no_members⟩
  rw [entryJson, isPrintable_member_cons_iff (by decide), isPrintable_member_cons_iff (by decide)]
  exact ⟨isPrintable_int _, isPrintable_int _, isPrintable_no_members⟩

/-- Flow numbers can be printed exactly if their tag can. -/
theorem isPrintable_flowNumbers_iff {batch : FlowBatch}
    (htags : ∀ n ∈ batch.numbers, n.tag = batch.tag) :
    batch.toJson.IsPrintable ↔ IsText batch.tag := by
  rw [FlowBatch.toJson, isPrintable_member_cons_iff (by decide),
    isPrintable_member_cons_iff (by decide), isPrintable_text_iff, isPrintable_list_iff,
    isText_upper_iff]
  refine ⟨fun h => h.2.1, fun h => ⟨List.forall_mem_map.mpr fun n hn => ?_, h,
    isPrintable_no_members⟩⟩
  exact isPrintable_text_iff.mpr (Flow.Number.isText_render ((htags n hn).symm ▸ h))

/-- The identity of a machine can be printed exactly if the names that the machine has can. -/
theorem isPrintable_identity_iff (identity : Identity) (m : Machine) :
    (Document.identity identity m.fingerprint).toJson.IsPrintable ↔ m.fingerprint.IsUtf8 := by
  have haddresses := m.isAscii_addresses
  have hfingerprint : (fingerprintJson m.fingerprint).IsPrintable ↔ m.fingerprint.IsUtf8 := by
    rw [fingerprintJson, isPrintable_member_cons_iff (by decide),
      isPrintable_member_cons_iff (by decide), isPrintable_member_cons_iff (by decide),
      isPrintable_member_cons_iff (by decide), isPrintable_member_cons_iff (by decide)]
    simp only [isPrintable_text_iff]
    exact ⟨fun h => ⟨h.1, h.2.2.2.1⟩, fun h => ⟨h.1, haddresses.2.1.isText, haddresses.1.isText,
      h.2, haddresses.2.2.isText, isPrintable_no_members⟩⟩
  rw [← hfingerprint, Document.toJson]
  constructor
  · intro h
    have hmembers := isPrintable_members_iff.mp h
    exact (hmembers _ (List.mem_append_right _ (List.mem_cons_self ..))).2
  · intro h
    refine isPrintable_members_append (isPrintable_datacenterMembers identity) ?_
    rw [isPrintable_member_cons_iff (by decide)]
    exact ⟨h, isPrintable_workerMembers identity⟩

/-! ## Printing -/

theorem print_success (document : Document) (h : document.toJson.IsPrintable) (remarks : Bytes) :
    ∃ output, (Outcome.success document remarks).print = .exited 0 output remarks ∧
      IsText output ∧ parse? output = some document.toJson := by
  cases hdump : document.toJson.dump? with
  | none => exact absurd h (dump?_eq_none_iff.mp hdump)
  | some text =>
      refine ⟨line text, ?_, parse?_of_dump? hdump⟩
      simp only [Outcome.print, Outcome.success, hdump]

theorem print_success_of_not_printable (document : Document)
    (h : ¬ document.toJson.IsPrintable) (remarks : Bytes) :
    (Outcome.success document remarks).print = .aborted remarks := by
  simp only [Outcome.print, Outcome.success, dump?_eq_none_iff.mpr h]

end Command

end IdMint
