import IdMint.Proofs.Numeral
import IdMint.Text.Hex

/-!
# Hexadecimal texts

The notation is said by its two alphabets: a character stands for the digit whose
place it has in one of them. The three ranges of bytes that the reader tests come
to the same, so it reads every text of such characters, in any mixture of cases,
and sixteen of them never say more than a word of 64 bits can hold.
-/

namespace IdMint.Hex

/-! ## Digits -/

/-- The characters of the digits in the order of the digits. -/
def alphabet : Bytes := ascii "0123456789abcdef"

def capitals : Bytes := ascii "0123456789ABCDEF"

/-- The character stands for the digit, in one case or the other. -/
def IsDigit (b : UInt8) (d : Nat) : Prop := alphabet[d]? = some b ∨ capitals[d]? = some b

instance (b : UInt8) (d : Nat) : Decidable (IsDigit b d) := inferInstanceAs (Decidable (_ ∨ _))

theorem IsDigit.lt {b : UInt8} {d : Nat} (h : IsDigit b d) : d < 16 := by
  have hlower : alphabet.length = 16 := by decide
  have hupper : capitals.length = 16 := by decide
  rcases h with h | h
  · obtain ⟨hd, -⟩ := List.getElem?_eq_some_iff.mp h
    omega
  · obtain ⟨hd, -⟩ := List.getElem?_eq_some_iff.mp h
    omega

theorem digitValue?_digitByte {d : Nat} (h : d < 16) : digitValue? (digitByte d) = some d := by
  have hall : ∀ d ∈ List.range 16, digitValue? (digitByte d) = some d := by decide
  exact hall d (List.mem_range.mpr h)

theorem digitByte_mem_alphabet {d : Nat} (h : d < 16) : digitByte d ∈ alphabet := by
  have hall : ∀ d ∈ List.range 16, digitByte d ∈ alphabet := by decide
  exact hall d (List.mem_range.mpr h)

theorem digitValue?_eq_some_iff {b : UInt8} {d : Nat} : digitValue? b = some d ↔ IsDigit b d := by
  constructor
  · intro h
    have hall : ∀ k ∈ List.range 256, ∀ d ∈ digitValue? (UInt8.ofNat k),
        IsDigit (UInt8.ofNat k) d := by decide +kernel
    have hb := hall b.toNat (List.mem_range.mpr b.toNat_lt) d
    rw [UInt8.ofNat_toNat] at hb
    exact hb h
  · intro h
    have hall : ∀ d ∈ List.range 16, (∀ c ∈ alphabet[d]?, digitValue? c = some d) ∧
        ∀ c ∈ capitals[d]?, digitValue? c = some d := by decide +kernel
    obtain ⟨hlower, hupper⟩ := hall d (List.mem_range.mpr h.lt)
    exact h.elim (hlower b) (hupper b)

theorem IsDigit.unique {b : UInt8} {d e : Nat} (hd : IsDigit b d) (he : IsDigit b e) : d = e := by
  rw [← digitValue?_eq_some_iff] at hd he
  exact Option.some.inj (hd.symm.trans he)

/-! ## Words -/

/-- The characters stand for digits, and the digits denote the number. -/
def Denotes (text : Bytes) (n : Nat) : Prop :=
  ∃ ds, List.Forall₂ IsDigit text ds ∧ Nat.ofDigits 16 ds.reverse = n

theorem mapM_digitValue?_eq_some_iff {text : Bytes} {ds : List Nat} :
    text.mapM digitValue? = some ds ↔ List.Forall₂ IsDigit text ds := by
  induction text generalizing ds with
  | nil =>
      rw [List.forall₂_nil_left_iff, eq_comm]
      exact ⟨Option.some.inj, congrArg some⟩
  | cons b text ih =>
      rw [List.mapM_cons, List.forall₂_cons_left_iff]
      constructor
      · intro h
        obtain ⟨d, hd, h⟩ := Option.bind_eq_some_iff.mp h
        obtain ⟨rest, hrest, h⟩ := Option.bind_eq_some_iff.mp h
        cases h
        exact ⟨d, rest, digitValue?_eq_some_iff.mp hd, ih.mp hrest, rfl⟩
      · rintro ⟨d, rest, hd, hrest, rfl⟩
        refine Option.bind_eq_some_iff.mpr ⟨d, digitValue?_eq_some_iff.mpr hd, ?_⟩
        exact Option.bind_eq_some_iff.mpr ⟨rest, ih.mpr hrest, rfl⟩

theorem Denotes.lt {text : Bytes} {n : Nat} (h : Denotes text n) : n < 16 ^ text.length := by
  obtain ⟨ds, hds, rfl⟩ := h
  have hlt : ∀ d ∈ ds, d < 16 := by
    intro d hd
    obtain ⟨i, hi, rfl⟩ := List.mem_iff_getElem.mp hd
    exact (hds.get (hds.length_eq ▸ hi) hi).lt
  rw [← Numeral.value_eq_ofDigits, hds.length_eq]
  exact Numeral.value_lt hlt

/-- A text is read exactly if it has one to sixteen characters, all of them digits, and it is
read as the word that they denote. -/
theorem parseUInt64?_eq_some_iff {text : Bytes} {w : UInt64} :
    parseUInt64? text = some w ↔
      1 ≤ text.length ∧ text.length ≤ 16 ∧ Denotes text w.toNat := by
  have hwidth : word64Width = 16 := rfl
  have hempty : text.isEmpty = true ↔ text.length = 0 := List.isEmpty_iff_length_eq_zero
  rw [parseUInt64?, hwidth]
  by_cases hlength : text.isEmpty = true ∨ 16 < text.length
  · rw [if_pos hlength]
    refine iff_of_false (by rintro ⟨⟩) ?_
    rintro ⟨hpos, hle, -⟩
    rw [hempty] at hlength
    omega
  · rw [if_neg hlength]
    rw [hempty] at hlength
    constructor
    · intro h
      obtain ⟨ds, hds, h⟩ := Option.bind_eq_some_iff.mp h
      cases h
      have hdenotes : Denotes text (Numeral.value 16 ds) :=
        ⟨ds, mapM_digitValue?_eq_some_iff.mp hds, (Numeral.value_eq_ofDigits 16 ds).symm⟩
      have hfits : Numeral.value 16 ds < 2 ^ 64 :=
        Nat.lt_of_lt_of_le hdenotes.lt (Nat.pow_le_pow_right (by decide) (by omega : _ ≤ 16))
      rw [UInt64.toNat_ofNat_of_lt' hfits]
      exact ⟨by omega, by omega, hdenotes⟩
    · rintro ⟨-, -, ds, hds, hvalue⟩
      refine Option.bind_eq_some_iff.mpr ⟨ds, mapM_digitValue?_eq_some_iff.mpr hds, ?_⟩
      rw [Numeral.value_eq_ofDigits, hvalue, UInt64.ofNat_toNat]

theorem ofUInt64_eq_fixed (w : UInt64) :
    ofUInt64 w = (Numeral.fixed 16 word64Width w.toNat).map digitByte := rfl

theorem length_ofUInt64 (w : UInt64) : (ofUInt64 w).length = word64Width := by
  rw [ofUInt64_eq_fixed, List.length_map, Numeral.length_fixed]
  exact w.toNat_lt

theorem ofUInt64_mem_alphabet (w : UInt64) : ∀ b ∈ ofUInt64 w, b ∈ alphabet := by
  intro b hb
  rw [ofUInt64_eq_fixed] at hb
  obtain ⟨d, hd, rfl⟩ := List.mem_map.mp hb
  exact digitByte_mem_alphabet (Numeral.fixed_lt (by decide) _ _ d hd)

/-- The digits of a word are read as that word. -/
theorem parseUInt64?_ofUInt64 (w : UInt64) : parseUInt64? (ofUInt64 w) = some w := by
  have hlength := length_ofUInt64 w
  have hwidth : word64Width = 16 := rfl
  have hdigits := Numeral.mapM_map_eq_some (fun _ => digitValue?_digitByte)
    (Numeral.fixed_lt (by decide : 0 < 16) word64Width w.toNat)
  have hfits : ¬ ((ofUInt64 w).isEmpty = true ∨ word64Width < (ofUInt64 w).length) := by
    rw [hlength, List.isEmpty_iff_length_eq_zero, hlength]
    omega
  rw [parseUInt64?, if_neg hfits, ofUInt64_eq_fixed, hdigits]
  show some (UInt64.ofNat (Numeral.value 16 _)) = some w
  rw [Numeral.value_fixed (by decide), UInt64.ofNat_toNat]

/-! ## Bytes -/

/-- The text writes each byte as two digits, the high one first. -/
inductive Spells : Bytes → Bytes → Prop
  | nil : Spells [] []
  | cons {high low : UInt8} {d e : Nat} {text bytes : Bytes} (hhigh : IsDigit high d)
      (hlow : IsDigit low e) (rest : Spells text bytes) :
      Spells (high :: low :: text) (UInt8.ofNat (16 * d + e) :: bytes)

theorem isDigit_digitByte {d : Nat} (h : d < 16) : IsDigit (digitByte d) d :=
  digitValue?_eq_some_iff.mp (digitValue?_digitByte h)

theorem IsDigit.eq_digitByte {c : UInt8} {d : Nat} (h : IsDigit c d) (hlower : c ∈ alphabet) :
    c = digitByte d := by
  have hall : ∀ c ∈ alphabet, ∀ d ∈ List.range 16, IsDigit c d → c = digitByte d := by
    decide +kernel
  exact hall c hlower d (List.mem_range.mpr h.lt) h

theorem ofBytes_singleton (b : UInt8) : ofBytes [b] = ofByte b := by
  rw [ofBytes, List.flatMap_singleton]

theorem length_ofBytes (bytes : Bytes) : (ofBytes bytes).length = 2 * bytes.length := by
  rw [ofBytes, List.length_flatMap]
  simp [ofByte, Nat.mul_comm]

theorem ofBytes_mem_alphabet (bytes : Bytes) : ∀ c ∈ ofBytes bytes, c ∈ alphabet := by
  intro c hc
  obtain ⟨b, -, hc⟩ := List.mem_flatMap.mp hc
  have hb := b.toNat_lt
  rcases List.mem_pair.mp hc with rfl | rfl
  · exact digitByte_mem_alphabet (by omega)
  · exact digitByte_mem_alphabet (by omega)

theorem spells_ofBytes (bytes : Bytes) : Spells (ofBytes bytes) bytes := by
  induction bytes with
  | nil => exact .nil
  | cons b bytes ih =>
      have hb := b.toNat_lt
      have hhigh := isDigit_digitByte (by omega : b.toNat / 16 < 16)
      have hlow := isDigit_digitByte (by omega : b.toNat % 16 < 16)
      have hspells := Spells.cons hhigh hlow ih
      rw [Nat.div_add_mod, UInt8.ofNat_toNat] at hspells
      exact hspells

theorem Spells.unique {text bytes bytes' : Bytes} (h : Spells text bytes)
    (h' : Spells text bytes') : bytes = bytes' := by
  induction h generalizing bytes' with
  | nil => cases h'; rfl
  | cons hhigh hlow rest ih =>
      cases h' with
      | cons hhigh' hlow' rest' => rw [hhigh.unique hhigh', hlow.unique hlow', ih rest']

/-- Among the texts that write some bytes, the one in lower case is the one written. -/
theorem eq_ofBytes_iff {text bytes : Bytes} :
    text = ofBytes bytes ↔ (∀ c ∈ text, c ∈ alphabet) ∧ Spells text bytes := by
  constructor
  · rintro rfl
    exact ⟨ofBytes_mem_alphabet bytes, spells_ofBytes bytes⟩
  · rintro ⟨hlower, h⟩
    induction h with
    | nil => rfl
    | @cons high low d e text bytes hhigh hlow rest ih =>
        have hd := hhigh.lt
        have he := hlow.lt
        have hvalue : (UInt8.ofNat (16 * d + e)).toNat = 16 * d + e :=
          UInt8.toNat_ofNat_of_lt' (show 16 * d + e < 256 by omega)
        have hfirst : (UInt8.ofNat (16 * d + e)).toNat / 16 = d := by omega
        have hsecond : (UInt8.ofNat (16 * d + e)).toNat % 16 = e := by omega
        obtain ⟨hhigh', hlow', hlower⟩ := by simpa only [List.forall_mem_cons] using hlower
        rw [hhigh.eq_digitByte hhigh', hlow.eq_digitByte hlow', ih hlower, ofBytes, ofBytes,
          List.flatMap_cons, ofByte, hfirst, hsecond]
        rfl

end IdMint.Hex
