import IdMint.Proofs.Numeral
import IdMint.Text.Decimal

/-!
# Texts of fixed width are numbers

A number that fits its width is padded to exactly that width, and texts of fixed
width put side by side are again one numeral. So a date, a time of day or a
whole flow number can be taken as one number, and comparing the texts is
comparing the numbers.

A text of one or more such digits, of whatever width and after a minus sign or not,
denotes an integer, and what the reader reads are exactly the texts that denote a signed
64-bit integer. What is written of an integer denotes it, so it is read again.
-/

namespace IdMint.Decimal

/-- The text consists of as many digits as the width says, and they denote the
number. -/
def Shows (width n : Nat) (text : Bytes) : Prop :=
  ∃ ds : List Nat, text = ds.map digitByte ∧ ds.length = width ∧ (∀ d ∈ ds, d < 10) ∧
    Numeral.value 10 ds = n

theorem digitByte_lt_iff {c d : Nat} (hc : c < 10) (hd : d < 10) :
    digitByte c < digitByte d ↔ c < d := by
  have hall : ∀ c ∈ List.range 10, ∀ d ∈ List.range 10, (digitByte c < digitByte d ↔ c < d) := by
    decide
  exact hall c (List.mem_range.mpr hc) d (List.mem_range.mpr hd)

theorem padded_eq_fixed {width : Nat} (hwidth : 0 < width) (n : Nat) :
    padded width n = (Numeral.fixed 10 width n).map digitByte := by
  have hn : ¬ (n : Int) < 0 := by omega
  rw [padded, ofInt, if_neg hn, Int.natAbs_natCast, ofNat, Numeral.fixed]
  split
  · next hz =>
      -- Zero has no digits, so the lone `0` of the text counts as padding.
      obtain ⟨width, rfl⟩ : ∃ w, width = w + 1 := ⟨width - 1, by omega⟩
      rw [hz]
      simp only [List.leftpad, ascii, Numeral.digits, Numeral.digits.go, List.length_nil,
        List.append_nil, List.map_replicate, Nat.sub_zero]
      exact (List.replicate_succ' ..).symm
  · simp only [List.leftpad, List.map_append, List.map_replicate, List.length_map]
    rfl

theorem shows_padded_natCast {width n : Nat} (hwidth : 0 < width) (h : n < 10 ^ width) :
    Shows width n (padded width n) :=
  ⟨Numeral.fixed 10 width n, padded_eq_fixed hwidth n, Numeral.length_fixed h,
    Numeral.fixed_lt (by decide) width n, Numeral.value_fixed (by decide) width n⟩

theorem shows_padded {width : Nat} {n : Int} (hwidth : 0 < width) (hn : 0 ≤ n)
    (h : n < 10 ^ width) : Shows width n.toNat (padded width n) := by
  obtain ⟨k, rfl⟩ := Int.eq_ofNat_of_zero_le hn
  exact shows_padded_natCast hwidth (by exact_mod_cast h)

theorem Shows.append {v w m n : Nat} {a b : Bytes} (ha : Shows v m a) (hb : Shows w n b) :
    Shows (v + w) (m * 10 ^ w + n) (a ++ b) := by
  obtain ⟨ds, rfl, hlen, hlt, hvalue⟩ := ha
  obtain ⟨es, rfl, hlen', hlt', hvalue'⟩ := hb
  refine ⟨ds ++ es, List.map_append.symm, ?_, ?_, ?_⟩
  · rw [List.length_append, hlen, hlen']
  · intro d hd
    rcases List.mem_append.mp hd with hd | hd
    · exact hlt d hd
    · exact hlt' d hd
  · rw [Numeral.value_append, hvalue, hvalue', hlen']

theorem Shows.length {width n : Nat} {text : Bytes} (h : Shows width n text) :
    text.length = width := by
  obtain ⟨ds, rfl, hlen, -, -⟩ := h
  rw [List.length_map, hlen]

/-- Texts of one width are in the order of their numbers. -/
theorem Shows.lt_iff {width m n : Nat} {a b : Bytes} (ha : Shows width m a)
    (hb : Shows width n b) : a < b ↔ m < n := by
  obtain ⟨ds, rfl, hlen, hlt, rfl⟩ := ha
  obtain ⟨es, rfl, hlen', hlt', rfl⟩ := hb
  exact Numeral.map_lt_map_iff (fun _ _ => digitByte_lt_iff) hlt hlt' (hlen.trans hlen'.symm)

/-- A text denotes one number. -/
theorem Shows.unique {width width' m n : Nat} {text : Bytes} (h : Shows width m text)
    (h' : Shows width' n text) : m = n := by
  obtain rfl : width = width' := h.length.symm.trans h'.length
  have hirr : ¬ text < text := List.lt_irrefl text
  have hmn := mt (h.lt_iff h').mpr hirr
  have hnm := mt (h'.lt_iff h).mpr hirr
  omega

/-! ## Reading -/

theorem digitValue?_digitByte {d : Nat} (h : d < 10) : digitValue? (digitByte d) = some d := by
  have hall : ∀ d ∈ List.range 10, digitValue? (digitByte d) = some d := by decide
  exact hall d (List.mem_range.mpr h)

theorem eq_digitByte_of_digitValue? {b : UInt8} {d : Nat} (h : digitValue? b = some d) :
    d < 10 ∧ b = digitByte d := by
  have hzero : '0'.toUInt8.toNat = 48 := rfl
  have hnine : '9'.toUInt8.toNat = 57 := rfl
  have hcode : '0'.toNat = 48 := rfl
  rw [digitValue?] at h
  split at h
  · next hrange =>
      rw [UInt8.le_iff_toNat_le, UInt8.le_iff_toNat_le] at hrange
      cases h
      refine ⟨by omega, UInt8.toNat_inj.mp ?_⟩
      rw [digitByte, UInt8.toNat_add, UInt8.toNat_ofNat']
      omega
  · cases h

theorem Shows.not_mem {width n : Nat} {text : Bytes} (h : Shows width n text) {b : UInt8}
    (hb : digitValue? b = none) : b ∉ text := by
  obtain ⟨ds, rfl, -, hlt, -⟩ := h
  intro hmem
  obtain ⟨d, hd, rfl⟩ := List.mem_map.mp hmem
  rw [digitValue?_digitByte (hlt d hd)] at hb
  cases hb

theorem shows_ofNat (n : Nat) : ∃ width, Shows (width + 1) n (ofNat n) := by
  rw [ofNat]
  split
  · next hz => exact ⟨0, [0], rfl, rfl, by simp, by rw [hz]; rfl⟩
  · next hz =>
      have hvalue := Numeral.value_digits (by decide : 2 ≤ 10) n
      -- A number that is not zero has a first digit.
      cases hdigits : Numeral.digits 10 n with
      | nil =>
          rw [hdigits] at hvalue
          exact absurd hvalue.symm hz
      | cons d ds =>
          refine ⟨ds.length, _, rfl, rfl, ?_, by rw [← hdigits, hvalue]⟩
          rw [← hdigits]
          exact Numeral.digits_lt (by decide) n

/-- What is read within a limit are texts of one or more digits, and of those the ones that
denote a number within the limit. -/
theorem parseNat?_eq_some_iff {limit n : Nat} (hlimit : 9 ≤ limit) {text : Bytes} :
    parseNat? limit text = some n ↔ n ≤ limit ∧ ∃ width, Shows (width + 1) n text := by
  have hsmall : ∀ {ds : List Nat}, (∀ d ∈ ds, d < 10) → ∀ d ∈ ds, d ≤ limit := by
    intro ds hlt d hd
    have := hlt d hd
    omega
  cases text with
  | nil =>
      refine iff_of_false (by rintro ⟨⟩) ?_
      rintro ⟨_, width, hshows⟩
      cases hshows.length
  | cons b text =>
      rw [parseNat?, List.isEmpty_cons, if_neg Bool.false_ne_true, Option.bind_eq_bind,
        Option.bind_eq_some_iff]
      constructor
      · rintro ⟨ds, hds, hvalue⟩
        obtain ⟨htext, hlt⟩ := Numeral.eq_map_of_mapM (fun _ _ => eq_digitByte_of_digitValue?) hds
        rw [Numeral.boundedValue?_eq (by decide) (hsmall hlt)] at hvalue
        split at hvalue
        · next hle =>
            cases hvalue
            refine ⟨hle, text.length, ds, htext, ?_, hlt, rfl⟩
            have hlength := congrArg List.length htext
            rw [List.length_map] at hlength
            exact hlength.symm
        · cases hvalue
      · rintro ⟨hle, width, ds, htext, -, hlt, rfl⟩
        refine ⟨ds, ?_, ?_⟩
        · rw [htext]
          exact Numeral.mapM_map_eq_some (fun _ => digitValue?_digitByte) hlt
        · rw [Numeral.boundedValue?_eq (by decide) (hsmall hlt), if_pos hle]

/-! ## Reading with a sign -/

/-- The text is one or more digits, with a minus sign in front or without, and denotes the
integer. -/
inductive Denotes : Bytes → Int → Prop
  | unsigned {digits : Bytes} {width n : Nat} (h : Shows (width + 1) n digits) : Denotes digits n
  | negative {digits : Bytes} {width n : Nat} (h : Shows (width + 1) n digits) :
      Denotes ('-'.toUInt8 :: digits) (-n)

/-- The integer is one of the signed 64-bit integers. -/
def FitsInt64 (n : Int) : Prop := -2 ^ 63 ≤ n ∧ n < 2 ^ 63

instance (n : Int) : Decidable (FitsInt64 n) := inferInstanceAs (Decidable (_ ∧ _))

theorem fitsInt64_toInt (v : Int64) : FitsInt64 v.toInt := ⟨v.le_toInt, v.toInt_lt⟩

theorem toInt_ofInt {n : Int} (h : FitsInt64 n) : (Int64.ofInt n).toInt = n :=
  Int64.toInt_ofInt_of_le h.1 h.2

theorem Denotes.ne_nil {text : Bytes} {n : Int} (h : Denotes text n) : text ≠ [] := by
  cases h with
  | unsigned h =>
      rintro rfl
      cases h.length
  | negative => exact List.cons_ne_nil _ _

theorem denotes_unsigned_iff {b : UInt8} {rest : Bytes} (hb : b ≠ '-'.toUInt8) {n : Int} :
    Denotes (b :: rest) n ↔ ∃ width k : Nat, Shows (width + 1) k (b :: rest) ∧ n = k := by
  constructor
  · intro h
    cases h with
    | unsigned h => exact ⟨_, _, h, rfl⟩
    | negative => exact absurd rfl hb
  · rintro ⟨width, k, h, rfl⟩
    exact .unsigned h

theorem denotes_negative_iff {rest : Bytes} {n : Int} :
    Denotes ('-'.toUInt8 :: rest) n ↔ ∃ width k : Nat, Shows (width + 1) k rest ∧ n = -k := by
  constructor
  · intro h
    cases h with
    | unsigned h => exact absurd (List.mem_cons_self ..) (h.not_mem (by decide))
    | negative h => exact ⟨_, _, h, rfl⟩
  · rintro ⟨width, k, h, rfl⟩
    exact .negative h

theorem Denotes.unique {text : Bytes} {n n' : Int} (h : Denotes text n) (h' : Denotes text n') :
    n = n' := by
  cases h with
  | unsigned hshows =>
      cases h' with
      | unsigned hshows' => rw [hshows.unique hshows']
      | negative => exact absurd (List.mem_cons_self ..) (hshows.not_mem (by decide))
  | negative hshows =>
      obtain ⟨_, _, hshows', rfl⟩ := denotes_negative_iff.mp h'
      rw [hshows.unique hshows']

theorem parseInt64?_negative (rest : Bytes) :
    parseInt64? ('-'.toUInt8 :: rest)
      = (parseNat? (int64Max + 1) rest).map fun k : Nat => Int64.ofInt (-k) := by
  rw [parseInt64?, if_pos rfl]
  cases parseNat? (int64Max + 1) rest <;> rfl

theorem parseInt64?_unsigned {b : UInt8} (hb : b ≠ '-'.toUInt8) (rest : Bytes) :
    parseInt64? (b :: rest)
      = (parseNat? int64Max (b :: rest)).map fun k : Nat => Int64.ofInt k := by
  rw [parseInt64?, if_neg hb]
  cases parseNat? int64Max (b :: rest) <;> rfl

/-- A limit that lets through just what fits under a sign lets nothing else be lost. -/
theorem map_parseNat?_eq_some_iff {limit : Nat} (hlimit : 9 ≤ limit) {sign : Nat → Int}
    (hfits : ∀ k, FitsInt64 (sign k) ↔ k ≤ limit) {text : Bytes} {v : Int64} :
    (parseNat? limit text).map (fun k => Int64.ofInt (sign k)) = some v ↔
      ∃ width k : Nat, Shows (width + 1) k text ∧ v.toInt = sign k := by
  rw [Option.map_eq_some_iff]
  constructor
  · rintro ⟨k, hk, rfl⟩
    obtain ⟨hle, width, hshows⟩ := (parseNat?_eq_some_iff hlimit).mp hk
    exact ⟨width, k, hshows, toInt_ofInt ((hfits k).mpr hle)⟩
  · rintro ⟨width, k, hshows, hv⟩
    have hle : k ≤ limit := (hfits k).mp (hv ▸ fitsInt64_toInt v)
    refine ⟨k, (parseNat?_eq_some_iff hlimit).mpr ⟨hle, width, hshows⟩, ?_⟩
    rw [← hv, Int64.ofInt_toInt]

/-- A text is read exactly if it denotes a signed 64-bit integer, and then as that one. -/
theorem parseInt64?_eq_some_iff {text : Bytes} {v : Int64} :
    parseInt64? text = some v ↔ Denotes text v.toInt := by
  have hmax : int64Max = 2 ^ 63 - 1 := rfl
  cases text with
  | nil => exact iff_of_false (by rintro ⟨⟩) fun h => h.ne_nil rfl
  | cons b rest =>
      by_cases hb : b = '-'.toUInt8
      · rw [hb, parseInt64?_negative, denotes_negative_iff]
        refine map_parseNat?_eq_some_iff (by omega) fun k => ?_
        simp only [FitsInt64]
        omega
      · rw [parseInt64?_unsigned hb, denotes_unsigned_iff hb]
        refine map_parseNat?_eq_some_iff (by omega) fun k => ?_
        have hnonneg : (0 : Int) ≤ k := Int.natCast_nonneg k
        simp only [FitsInt64]
        omega

theorem parseInt64?_eq_none_iff {text : Bytes} :
    parseInt64? text = none ↔ ∀ n, Denotes text n → ¬ FitsInt64 n := by
  rw [Option.eq_none_iff_forall_ne_some]
  constructor
  · intro h n hdenotes hfits
    rw [← toInt_ofInt hfits] at hdenotes
    exact h _ (parseInt64?_eq_some_iff.mpr hdenotes)
  · intro h v hread
    exact h _ (parseInt64?_eq_some_iff.mp hread) (fitsInt64_toInt v)

/-! ## What is written is read -/

theorem denotes_ofInt (n : Int) : Denotes (ofInt n) n := by
  obtain ⟨width, hshows⟩ := shows_ofNat n.natAbs
  rw [ofInt]
  split
  · next hneg =>
      have hvalue : -(n.natAbs : Int) = n := by omega
      rw [← hvalue, Int.natAbs_neg, Int.natAbs_natCast]
      exact .negative hshows
  · next hneg =>
      have hvalue : (n.natAbs : Int) = n := by omega
      rw [← hvalue, Int.natAbs_natCast]
      exact .unsigned hshows

theorem ofInt_ne_nil (n : Int) : ofInt n ≠ [] := (denotes_ofInt n).ne_nil

/-- What is written of a signed 64-bit integer is read as that integer. -/
theorem parseInt64?_ofInt (n : Int64) : parseInt64? (ofInt n.toInt) = some n :=
  parseInt64?_eq_some_iff.mpr (denotes_ofInt n.toInt)

end IdMint.Decimal
