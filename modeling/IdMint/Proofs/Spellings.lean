import IdMint.Proofs.Decimal
import Mathlib.Tactic.Lift

/-!
# The spellings of an integer

An integer is spelled by a sign or none and by one or more digits. So much is free: any
number of zeros may stand in front, and zero may have a sign. Nothing else is, and nothing
else may stand anywhere in the text, so a text has one spelling at most.

The reader takes a text apart as it goes along, refuses it at the first byte that does not
belong, and stops where the next digit would lead out of range. None of this is in the
grammar here, which puts texts together from spellings and says what they come to by
the positions of the digits. The two meet in the numerals of fixed width: what these denote
is what spellings come to, and what is read are the spellings that come to a signed
64-bit integer.
-/

namespace IdMint.Decimal

/-- The characters of the digits in the order of the digits. -/
def characters : Vector UInt8 10 := ⟨(ascii "0123456789").toArray, by decide⟩

structure Spelling where
  /-- Whether there is a minus sign. -/
  isNegative : Bool
  /-- The digits, the first in front. -/
  digits : List (Fin 10)
  digits_ne_nil : digits ≠ []

namespace Spelling

def sign (s : Spelling) : Bytes := if s.isNegative then ascii "-" else []

def text (s : Spelling) : Bytes := s.sign ++ s.digits.map characters.get

def magnitude (s : Spelling) : Nat := Nat.ofDigits 10 (s.digits.map Fin.val).reverse

def value (s : Spelling) : Int := if s.isNegative then -s.magnitude else s.magnitude

/-- The same with zeros in front of the digits. -/
def withZeros (s : Spelling) (count : Nat) : Spelling where
  isNegative := s.isNegative
  digits := List.replicate count 0 ++ s.digits
  digits_ne_nil := List.append_ne_nil_of_right_ne_nil _ s.digits_ne_nil

/-! ## One text, one spelling -/

theorem characters_get (d : Fin 10) : characters.get d = digitByte d.val := by
  revert d
  decide

theorem characters_get_injective : Function.Injective characters.get := by
  have hall : ∀ d e, characters.get d = characters.get e → d = e := by decide
  exact fun d e h => hall d e h

theorem minus_ne_character (d : Fin 10) : '-'.toUInt8 ≠ characters.get d := by
  revert d
  decide

theorem mem_text {s : Spelling} {b : UInt8} (h : b ∈ s.text) :
    b = '-'.toUInt8 ∨ ∃ d, b = characters.get d := by
  rcases List.mem_append.mp h with h | h
  · rw [sign] at h
    split at h
    · exact .inl (List.mem_singleton.mp h)
    · cases h
  · obtain ⟨d, -, rfl⟩ := List.mem_map.mp h
    exact .inr ⟨d, rfl⟩

theorem mem_tail_text {s : Spelling} {b : UInt8} (h : b ∈ s.text.tail) :
    ∃ d, b = characters.get d := by
  have hdigits : b ∈ s.digits.map characters.get := by
    rw [text, sign] at h
    split at h
    · exact h
    · exact List.mem_of_mem_tail h
  obtain ⟨d, -, rfl⟩ := List.mem_map.mp hdigits
  exact ⟨d, rfl⟩

theorem minus_mem_text_iff {s : Spelling} : '-'.toUInt8 ∈ s.text ↔ s.isNegative = true := by
  have hdigits : '-'.toUInt8 ∉ s.digits.map characters.get := by
    intro h
    obtain ⟨d, -, hd⟩ := List.mem_map.mp h
    exact minus_ne_character d hd.symm
  rw [text, List.mem_append, sign]
  cases s.isNegative with
  | false => simp [hdigits]
  | true => simp [ascii]

theorem text_injective : Function.Injective text := by
  intro s s' h
  have hsign : s.isNegative = s'.isNegative := by
    rw [Bool.eq_iff_iff, ← minus_mem_text_iff, ← minus_mem_text_iff, h]
  obtain ⟨isNegative, digits, _⟩ := s
  obtain ⟨isNegative', digits', _⟩ := s'
  obtain rfl : isNegative = isNegative' := hsign
  have hdigits := List.append_cancel_left h
  obtain rfl := List.map_injective_iff.mpr characters_get_injective hdigits
  rfl

/-! ## What a spelling comes to -/

theorem map_characters_get (digits : List (Fin 10)) :
    digits.map characters.get = (digits.map Fin.val).map digitByte := by
  rw [List.map_map]
  exact List.map_congr_left fun d _ => characters_get d

theorem shows_digits (s : Spelling) :
    ∃ width, Shows (width + 1) s.magnitude (s.digits.map characters.get) := by
  have hlength := List.length_pos_of_ne_nil s.digits_ne_nil
  refine ⟨s.digits.length - 1, s.digits.map Fin.val, map_characters_get _, ?_, ?_, ?_⟩
  · rw [List.length_map]
    omega
  · intro d hd
    obtain ⟨e, -, rfl⟩ := List.mem_map.mp hd
    exact e.isLt
  · exact Numeral.value_eq_ofDigits 10 _

theorem exists_digits_of_shows {width n : Nat} {text : Bytes} (h : Shows (width + 1) n text) :
    ∃ digits : List (Fin 10), digits ≠ [] ∧ digits.map characters.get = text ∧
      Nat.ofDigits 10 (digits.map Fin.val).reverse = n := by
  obtain ⟨ds, rfl, hlength, hlt, rfl⟩ := h
  lift ds to List (Fin 10) using hlt
  refine ⟨ds, ?_, map_characters_get ds, (Numeral.value_eq_ofDigits 10 _).symm⟩
  rintro rfl
  cases hlength

theorem denotes_text (s : Spelling) : Denotes s.text s.value := by
  obtain ⟨width, hshows⟩ := s.shows_digits
  rw [text, value, sign]
  cases s.isNegative with
  | false => exact .unsigned hshows
  | true => exact .negative hshows

end Spelling

theorem denotes_iff_exists_spelling {text : Bytes} {n : Int} :
    Denotes text n ↔ ∃ s : Spelling, s.text = text ∧ s.value = n := by
  constructor
  · intro h
    cases h with
    | unsigned h =>
        obtain ⟨digits, hsome, rfl, rfl⟩ := Spelling.exists_digits_of_shows h
        exact ⟨⟨false, digits, hsome⟩, rfl, rfl⟩
    | negative h =>
        obtain ⟨digits, hsome, rfl, rfl⟩ := Spelling.exists_digits_of_shows h
        exact ⟨⟨true, digits, hsome⟩, rfl, rfl⟩
  · rintro ⟨s, rfl, rfl⟩
    exact s.denotes_text

/-! ## What is read of a spelling -/

namespace Spelling

/-- A spelling is read as what it comes to, unless that does not fit. -/
theorem parseInt64?_text (s : Spelling) :
    parseInt64? s.text
      = if FitsInt64 s.value then some (Int64.ofInt s.value) else none := by
  split
  · next hfits =>
      apply parseInt64?_eq_some_iff.mpr
      rw [toInt_ofInt hfits]
      exact s.denotes_text
  · next hfits =>
      apply parseInt64?_eq_none_iff.mpr
      intro n hn
      rwa [← s.denotes_text.unique hn]

theorem magnitude_withZeros (s : Spelling) (count : Nat) :
    (s.withZeros count).magnitude = s.magnitude := by
  rw [magnitude, withZeros, List.map_append, List.map_replicate, List.reverse_append,
    List.reverse_replicate]
  exact Nat.ofDigits_append_replicate_zero _

theorem value_withZeros (s : Spelling) (count : Nat) : (s.withZeros count).value = s.value := by
  rw [value, magnitude_withZeros]
  rfl

end Spelling

theorem exists_parseInt64?_iff {text : Bytes} :
    (∃ v, parseInt64? text = some v) ↔ ∃ s : Spelling, s.text = text ∧ FitsInt64 s.value := by
  constructor
  · rintro ⟨v, hv⟩
    obtain ⟨s, hs, hvalue⟩ := denotes_iff_exists_spelling.mp (parseInt64?_eq_some_iff.mp hv)
    exact ⟨s, hs, hvalue ▸ fitsInt64_toInt v⟩
  · rintro ⟨s, rfl, hfits⟩
    exact ⟨_, by rw [s.parseInt64?_text, if_pos hfits]⟩

/-- A byte that is no digit is found in no integer, but for a minus sign in front. -/
theorem of_mem_integer {before after : Bytes} {b : UInt8} {v : Int64}
    (h : parseInt64? (before ++ b :: after) = some v) :
    (before = [] ∧ b = '-'.toUInt8) ∨ ∃ d, b = characters.get d := by
  obtain ⟨s, hs, -⟩ := exists_parseInt64?_iff.mp ⟨v, h⟩
  cases before with
  | nil =>
      have hmem : b ∈ s.text := hs ▸ List.mem_cons_self ..
      exact (Spelling.mem_text hmem).imp_left fun hb => ⟨rfl, hb⟩
  | cons first before =>
      have hmem : b ∈ s.text.tail := hs ▸ List.mem_append_right _ (List.mem_cons_self ..)
      exact .inr (Spelling.mem_tail_text hmem)

/-! ## Main statement -/

/-- The texts that are read as signed 64-bit integers are the spellings of these, each read as
what it comes to. A text has one spelling at most, and zeros in front change nothing. So every
byte of such a text is a digit, or else a minus sign in front, and what is written of an
integer is read as that integer. -/
theorem integers_read_by_spelling :
    (∀ (text : Bytes) (v : Int64),
      parseInt64? text = some v ↔ ∃ s : Spelling, s.text = text ∧ s.value = v.toInt) ∧
    (∀ text : Bytes, (∃ v, parseInt64? text = some v) ↔
      ∃ s : Spelling, s.text = text ∧ -2 ^ 63 ≤ s.value ∧ s.value ≤ 2 ^ 63 - 1) ∧
    Function.Injective Spelling.text ∧
    (∀ (s : Spelling) (count : Nat), (s.withZeros count).value = s.value ∧
      parseInt64? (s.withZeros count).text = parseInt64? s.text) ∧
    (∀ (before : Bytes) (b : UInt8) (after : Bytes) (v : Int64),
      parseInt64? (before ++ b :: after) = some v →
        (before = [] ∧ b = '-'.toUInt8) ∨ ∃ d, b = characters.get d) ∧
    ∀ v : Int64, parseInt64? (ofInt v.toInt) = some v := by
  refine ⟨fun text v => ?_, fun text => ?_, Spelling.text_injective, fun s count => ?_,
    fun before b after v => of_mem_integer, parseInt64?_ofInt⟩
  · rw [parseInt64?_eq_some_iff, denotes_iff_exists_spelling]
  · rw [exists_parseInt64?_iff]
    simp only [FitsInt64, Int.le_sub_one_iff]
  · refine ⟨s.value_withZeros count, ?_⟩
    rw [Spelling.parseInt64?_text, Spelling.parseInt64?_text, s.value_withZeros]

/-- The least integer with two zeros in front, the number after the greatest, and a zero byte
at the end. -/
theorem integers_read_by_spelling_around_limits :
    parseInt64? (ascii "-009223372036854775808") = some Int64.minValue ∧
    parseInt64? (ascii "9223372036854775808") = none ∧
    ∀ v, parseInt64? (ascii "12" ++ [0]) ≠ some v := by
  obtain ⟨hread, hfits, hone, hzeros, hbytes, hwritten⟩ := integers_read_by_spelling
  let least : Spelling :=
    { isNegative := true
      digits := [9, 2, 2, 3, 3, 7, 2, 0, 3, 6, 8, 5, 4, 7, 7, 5, 8, 0, 8]
      digits_ne_nil := by decide }
  let beyond : Spelling := { least with isNegative := false }
  refine ⟨?_, ?_, ?_⟩
  · rw [← hwritten Int64.minValue]
    exact (hzeros least 2).2
  · refine Option.eq_none_iff_forall_ne_some.mpr fun v hv => ?_
    obtain ⟨s, hs, -, hle⟩ := (hfits beyond.text).mp ⟨v, hv⟩
    rw [hone hs] at hle
    exact absurd hle (by decide)
  · intro v hv
    rcases hbytes _ _ [] v hv with ⟨h, -⟩ | hdigit
    · cases h
    · revert hdigit
      decide

end IdMint.Decimal
