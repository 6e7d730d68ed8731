import IdMint.Identity.Variable
import IdMint.Proofs.Decimal

/-!
# What a variable says

The text of a variable is a numeral with a sign or without, and the id is the integer
that it denotes. `Says` is this notation, on its own and for numerals of any length.

The reader follows it as far as signed 64-bit integers go. In there, an integer is
told from a text that is none, and an id in range from one out of range. A numeral
beyond is not told from a text that is no numeral at all: it is refused as not decimal,
and not as out of range.
-/

namespace IdMint

/-- The text of a variable denotes the integer: as a decimal text, or with a plus sign in
front of the digits. -/
inductive Says : Bytes → Int → Prop
  | decimal {text : Bytes} {n : Int} (h : Decimal.Denotes text n) : Says text n
  | plus {digits : Bytes} {width n : Nat} (h : Decimal.Shows (width + 1) n digits) :
      Says ('+'.toUInt8 :: digits) n

theorem Says.ne_nil {text : Bytes} {n : Int} (h : Says text n) : text ≠ [] := by
  cases h with
  | decimal h => exact h.ne_nil
  | plus => exact List.cons_ne_nil _ _

theorem says_plus_iff {rest : Bytes} {n : Int} :
    Says ('+'.toUInt8 :: rest) n ↔ ∃ width k : Nat, Decimal.Shows (width + 1) k rest ∧ n = k := by
  constructor
  · intro h
    cases h with
    | decimal h =>
        obtain ⟨_, _, hshows, _⟩ := (Decimal.denotes_unsigned_iff (by decide)).mp h
        exact absurd (List.mem_cons_self ..) (hshows.not_mem (by decide))
    | plus h => exact ⟨_, _, h, rfl⟩
  · rintro ⟨width, k, h, rfl⟩
    exact .plus h

theorem denotes_withoutPlus_iff {text : Bytes} {n : Int} :
    Decimal.Denotes (withoutPlus text) n ↔ Says text n := by
  cases text with
  | nil => exact iff_of_false (fun h => h.ne_nil rfl) fun h => h.ne_nil rfl
  | cons b rest =>
      rw [withoutPlus]
      by_cases hb : b = '+'.toUInt8
      · rw [if_pos hb, hb, says_plus_iff]
        cases rest with
        | nil =>
            refine iff_of_false (fun h => h.ne_nil rfl) ?_
            rintro ⟨width, k, h, -⟩
            cases h.length
        | cons c rest =>
            rw [List.head?_cons]
            by_cases hc : c = '-'.toUInt8
            · -- Two signs are no numeral, although the second one alone would do.
              rw [if_pos (congrArg some hc)]
              refine iff_of_false (fun h => h.ne_nil rfl) ?_
              rintro ⟨width, k, h, -⟩
              exact h.not_mem (b := c) (by rw [hc]; decide) (List.mem_cons_self ..)
            · rw [if_neg fun h => hc (Option.some.inj h)]
              exact Decimal.denotes_unsigned_iff hc
      · rw [if_neg hb]
        constructor
        · exact .decimal
        · intro h
          cases h with
          | decimal h => exact h
          | plus => exact absurd rfl hb

/-! ## What comes of a text -/

/-- What may come of the text of a variable, if the greatest id is `max`. -/
inductive Reads (max : Int) : Option Bytes → Except VariableError Int → Prop
  | unset : Reads max none (.error .notSet)
  | empty : Reads max (some []) (.error .notSet)
  | accepted {text : Bytes} {n : Int} (hsaid : Says text n) (hfits : Decimal.FitsInt64 n)
      (hrange : 0 ≤ n ∧ n ≤ max) : Reads max (some text) (.ok n)
  | outOfRange {text : Bytes} {n : Int} (hsaid : Says text n) (hfits : Decimal.FitsInt64 n)
      (hrange : ¬ (0 ≤ n ∧ n ≤ max)) : Reads max (some text) (.error (.outOfRange max n))
  | notDecimal {text : Bytes} (hset : text ≠ [])
      (hnone : ∀ n, Says text n → ¬ Decimal.FitsInt64 n) :
      Reads max (some text) (.error (.notDecimal text))

theorem parse_withoutPlus_eq_some_iff {text : Bytes} {v : Int64} :
    Decimal.parseInt64? (withoutPlus text) = some v ↔ Says text v.toInt := by
  rw [Decimal.parseInt64?_eq_some_iff, denotes_withoutPlus_iff]

theorem readId_of_set (max : Int) {text : Bytes} (h : text ≠ []) :
    readId max (some text) =
      match Decimal.parseInt64? (withoutPlus text) with
      | none => .error (.notDecimal text)
      | some id =>
        if 0 ≤ id.toInt ∧ id.toInt ≤ max then .ok id.toInt
        else .error (.outOfRange max id.toInt) :=
  if_neg (mt List.isEmpty_iff.mp h)

theorem reads_readId (max : Int) (text? : Option Bytes) : Reads max text? (readId max text?) := by
  cases text? with
  | none => exact .unset
  | some text =>
      by_cases hset : text = []
      · rw [hset]
        exact .empty
      · rw [readId_of_set max hset]
        cases hparse : Decimal.parseInt64? (withoutPlus text) with
        | none =>
            refine .notDecimal hset fun n hsaid => ?_
            exact Decimal.parseInt64?_eq_none_iff.mp hparse n (denotes_withoutPlus_iff.mpr hsaid)
        | some v =>
            have hsaid := parse_withoutPlus_eq_some_iff.mp hparse
            have hfits := Decimal.fitsInt64_toInt v
            simp only []
            split
            · next hrange => exact .accepted hsaid hfits hrange
            · next hrange => exact .outOfRange hsaid hfits hrange

theorem Reads.eq {max : Int} {text? : Option Bytes} {result : Except VariableError Int}
    (h : Reads max text? result) : readId max text? = result := by
  cases h with
  | unset => rfl
  | empty => rfl
  | accepted hsaid hfits hrange =>
      rw [← Decimal.toInt_ofInt hfits] at hsaid hrange ⊢
      rw [readId_of_set max hsaid.ne_nil, parse_withoutPlus_eq_some_iff.mpr hsaid]
      exact if_pos hrange
  | outOfRange hsaid hfits hrange =>
      rw [← Decimal.toInt_ofInt hfits] at hsaid hrange ⊢
      rw [readId_of_set max hsaid.ne_nil, parse_withoutPlus_eq_some_iff.mpr hsaid]
      exact if_neg hrange
  | @notDecimal text hset hnone =>
      have hparse : Decimal.parseInt64? (withoutPlus text) = none :=
        Decimal.parseInt64?_eq_none_iff.mpr fun n h => hnone n (denotes_withoutPlus_iff.mp h)
      rw [readId_of_set max hset, hparse]

/-- What comes of a text is determined by what it says. -/
theorem readId_eq_iff {max : Int} {text? : Option Bytes} {result : Except VariableError Int} :
    readId max text? = result ↔ Reads max text? result :=
  ⟨fun h => h ▸ reads_readId max text?, Reads.eq⟩

theorem readId_eq_notSet_iff {max : Int} {text? : Option Bytes} :
    readId max text? = .error .notSet ↔ text? = none ∨ text? = some [] := by
  rw [readId_eq_iff]
  constructor
  · intro h
    cases h with
    | unset => exact .inl rfl
    | empty => exact .inr rfl
  · rintro (rfl | rfl)
    · exact .unset
    · exact .empty

theorem readId_eq_ok_iff {max : Int} {text? : Option Bytes} {n : Int} :
    readId max text? = .ok n ↔
      ∃ text, text? = some text ∧ Says text n ∧ Decimal.FitsInt64 n ∧ 0 ≤ n ∧ n ≤ max := by
  rw [readId_eq_iff]
  constructor
  · intro h
    cases h with
    | accepted hsaid hfits hrange => exact ⟨_, rfl, hsaid, hfits, hrange⟩
  · rintro ⟨text, rfl, hsaid, hfits, hrange⟩
    exact .accepted hsaid hfits hrange

/-- A text is told apart by the integer that it says. It is not set exactly if there is none
or it is empty. A signed 64-bit integer is accepted as it is within the range and refused as
out of range outside, with any number of leading zeros and any sign that the notation has.
Refused as not decimal are the texts that say nothing, and those that say an integer beyond
64 bits. -/
theorem texts_told_apart (max : Int) (text? : Option Bytes) :
    (readId max text? = .error .notSet ↔ text? = none ∨ text? = some []) ∧
    (∀ n, readId max text? = .ok n ↔
      ∃ text, text? = some text ∧ Says text n ∧ Decimal.FitsInt64 n ∧ 0 ≤ n ∧ n ≤ max) ∧
    (∀ limit n, readId max text? = .error (.outOfRange limit n) ↔
      limit = max ∧
        ∃ text, text? = some text ∧ Says text n ∧ Decimal.FitsInt64 n ∧ ¬ (0 ≤ n ∧ n ≤ max)) ∧
    ∀ text, readId max text? = .error (.notDecimal text) ↔
      text? = some text ∧ text ≠ [] ∧ ∀ n, Says text n → ¬ Decimal.FitsInt64 n := by
  refine ⟨readId_eq_notSet_iff, fun _ => readId_eq_ok_iff, fun limit n => ?_, fun text => ?_⟩
  · rw [readId_eq_iff]
    constructor
    · intro h
      cases h with
      | outOfRange hsaid hfits hrange => exact ⟨rfl, _, rfl, hsaid, hfits, hrange⟩
    · rintro ⟨rfl, text, rfl, hsaid, hfits, hrange⟩
      exact .outOfRange hsaid hfits hrange
  · rw [readId_eq_iff]
    constructor
    · intro h
      cases h with
      | notDecimal hset hnone => exact ⟨rfl, hset, hnone⟩
    · rintro ⟨rfl, hset, hnone⟩
      exact .notDecimal hset hnone

/-- The first integer beyond 64 bits is out of range, and its numeral is refused as not
decimal. -/
theorem numeral_past_64_bits_not_decimal :
    Says (ascii "9223372036854775808") (2 ^ 63) ∧ ¬ (2 ^ 63 : Int) ≤ maxAddressId ∧
      readId maxAddressId (some (ascii "9223372036854775808"))
        = .error (.notDecimal (ascii "9223372036854775808")) := by
  refine ⟨.decimal (@Decimal.Denotes.unsigned _ 18 (2 ^ 63) ?_), by decide, by decide⟩
  exact ⟨[9, 2, 2, 3, 3, 7, 2, 0, 3, 6, 8, 5, 4, 7, 7, 5, 8, 0, 8], by decide, rfl, by decide,
    by decide⟩

end IdMint
