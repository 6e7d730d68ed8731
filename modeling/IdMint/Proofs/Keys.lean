import IdMint.Obfuscation.Key
import IdMint.Proofs.Decimal
import IdMint.Proofs.HexText

/-!
# A key is read as it was written

Sixteen digits are enough for any word of 64 bits and are always written, so
what is written of a key is a hexadecimal key and is read as the same bit
pattern, whatever its sign as a number.

Read are two notations, and `Denotes` is both of them: a bit pattern behind a mark, and
an integer in decimal. The mark is no decimal text and its letter no decimal digit, so no
text is in both, and a malformed rest behind the mark has no second chance. The mark
alone, with nothing behind it, goes to the decimal reader and is refused there.
-/

namespace IdMint.Key

theorem hexPart?_format (key : Int64) :
    hexPart? (format key) = some (Hex.ofUInt64 key.toUInt64) := by
  have hlength := Hex.length_ofUInt64 key.toUInt64
  rw [format]
  cases hdigits : Hex.ofUInt64 key.toUInt64 with
  | nil =>
      rw [hdigits] at hlength
      cases hlength
  | cons d ds =>
      have hmark : ascii "0x" ++ d :: ds = '0'.toUInt8 :: 'x'.toUInt8 :: d :: ds := rfl
      rw [hmark, hexPart?, if_pos ⟨rfl, .inl rfl⟩]

/-- What is written of a key is read as that key. -/
theorem parse?_format (key : Int64) : parse? (format key) = some key := by
  rw [parse?, hexPart?_format]
  show Option.map _ (Hex.parseUInt64? _) = _
  rw [Hex.parseUInt64?_ofUInt64, Option.map_some, Int64.toInt64_toUInt64]

/-! ## What is read -/

/-- The integer that 64 bits stand for in two's complement, the bits being given as the
number that they denote. -/
def twosComplement (n : Nat) : Int := if n < 2 ^ 63 then n else n - 2 ^ 64

/-- The text is that of the key, in one notation or the other. -/
inductive Denotes : Bytes → Int64 → Prop
  | pattern {mark : UInt8} {digits : Bytes} {n : Nat} {key : Int64}
      (hmark : mark = 'x'.toUInt8 ∨ mark = 'X'.toUInt8) (hsome : 1 ≤ digits.length)
      (hwidth : digits.length ≤ 16) (hdigits : Hex.Denotes digits n)
      (hkey : key.toInt = twosComplement n) : Denotes ('0'.toUInt8 :: mark :: digits) key
  | decimal {text : Bytes} {n : Int} {key : Int64} (htext : Decimal.Denotes text n)
      (hkey : key.toInt = n) : Denotes text key

theorem toInt_eq_twosComplement (key : Int64) :
    key.toInt = twosComplement key.toUInt64.toNat := by
  have hcond : key.toInt = if 2 * key.toUInt64.toNat < 2 ^ 64 then (key.toUInt64.toNat : Int)
      else (key.toUInt64.toNat : Int) - (2 ^ 64 : Nat) := BitVec.toInt_eq_toNat_cond key.toBitVec
  rw [hcond, twosComplement]
  split <;> split <;> omega

theorem eq_of_toInt_eq_twosComplement {key : Int64} {n : Nat} (hn : n < 2 ^ 64)
    (h : key.toInt = twosComplement n) : key.toUInt64.toNat = n := by
  have hkey := key.toUInt64.toNat_lt
  rw [toInt_eq_twosComplement, twosComplement, twosComplement] at h
  split at h <;> split at h <;> omega

theorem hexPart?_eq_some_iff {text digits : Bytes} :
    hexPart? text = some digits ↔ 1 ≤ digits.length ∧
      ∃ mark, (mark = 'x'.toUInt8 ∨ mark = 'X'.toUInt8) ∧ text = '0'.toUInt8 :: mark :: digits := by
  constructor
  · intro h
    rw [hexPart?.eq_def] at h
    split at h
    · next zero mark digit rest =>
        split at h
        · next hmark =>
            cases h
            obtain ⟨rfl, hmark⟩ := hmark
            exact ⟨Nat.succ_pos _, mark, hmark, rfl⟩
        · cases h
    · cases h
  · rintro ⟨hsome, mark, hmark, rfl⟩
    cases digits with
    | nil => cases hsome
    | cons digit rest => exact if_pos ⟨rfl, hmark⟩

/-- The letter of a mark is no decimal digit. -/
theorem not_denotes_of_mark {mark : UInt8} (hmark : mark = 'x'.toUInt8 ∨ mark = 'X'.toUInt8)
    (digits : Bytes) (n : Int) : ¬ Decimal.Denotes ('0'.toUInt8 :: mark :: digits) n := by
  intro h
  obtain ⟨width, k, hshows, -⟩ := (Decimal.denotes_unsigned_iff (by decide)).mp h
  have hletter : Decimal.digitValue? mark = none := by
    rcases hmark with rfl | rfl
    · decide
    · decide
  exact hshows.not_mem hletter (List.mem_cons_of_mem _ (List.mem_cons_self ..))

theorem parse?_pattern {mark : UInt8} (hmark : mark = 'x'.toUInt8 ∨ mark = 'X'.toUInt8)
    {digits : Bytes} (hsome : 1 ≤ digits.length) :
    parse? ('0'.toUInt8 :: mark :: digits) = (Hex.parseUInt64? digits).map UInt64.toInt64 := by
  rw [parse?, hexPart?_eq_some_iff.mpr ⟨hsome, mark, hmark, rfl⟩]

/-- A text is read exactly if it is that of a key, and then as that key. -/
theorem parse?_eq_some_iff {text : Bytes} {key : Int64} :
    parse? text = some key ↔ Denotes text key := by
  constructor
  · intro h
    rw [parse?] at h
    split at h
    · next digits hpart =>
        obtain ⟨-, mark, hmark, rfl⟩ := hexPart?_eq_some_iff.mp hpart
        obtain ⟨w, hw, rfl⟩ := Option.map_eq_some_iff.mp h
        obtain ⟨hsome, hwidth, hdigits⟩ := Hex.parseUInt64?_eq_some_iff.mp hw
        refine .pattern hmark hsome hwidth hdigits ?_
        rw [toInt_eq_twosComplement, UInt64.toUInt64_toInt64]
    · exact .decimal (Decimal.parseInt64?_eq_some_iff.mp h) rfl
  · intro h
    cases h with
    | @pattern mark digits n _ hmark hsome hwidth hdigits hkey =>
        have hn : n < 2 ^ 64 :=
          Nat.lt_of_lt_of_le hdigits.lt (Nat.pow_le_pow_right (by decide) hwidth)
        rw [← eq_of_toInt_eq_twosComplement hn hkey] at hdigits
        rw [parse?_pattern hmark hsome,
          Hex.parseUInt64?_eq_some_iff.mpr ⟨hsome, hwidth, hdigits⟩, Option.map_some,
          Int64.toInt64_toUInt64]
    | decimal htext hkey =>
        have hpart : hexPart? text = none := by
          refine Option.eq_none_iff_forall_ne_some.mpr fun digits hdigits => ?_
          obtain ⟨-, mark, hmark, rfl⟩ := hexPart?_eq_some_iff.mp hdigits
          exact not_denotes_of_mark hmark digits _ htext
        rw [parse?, hpart]
        exact Decimal.parseInt64?_eq_some_iff.mpr (hkey ▸ htext)

/-- Keys and their texts fit together. The text of a key is a mark and sixteen digits in lower
case and is read as the key, and so is its decimal text. And of all texts those are read that
denote a key, as the key that they denote. -/
theorem texts_of_keys :
    (∀ key : Int64,
      (∃ digits : Bytes, format key = ascii "0x" ++ digits ∧ digits.length = 16 ∧
        ∀ b ∈ digits, b ∈ ascii "0123456789abcdef") ∧
      parse? (format key) = some key ∧ parse? (Decimal.ofInt key.toInt) = some key) ∧
    ∀ (text : Bytes) (key : Int64), parse? text = some key ↔ Denotes text key := by
  refine ⟨fun key => ⟨?_, parse?_format key, ?_⟩, fun _ _ => parse?_eq_some_iff⟩
  · exact ⟨_, rfl, Hex.length_ofUInt64 _, Hex.ofUInt64_mem_alphabet _⟩
  · exact parse?_eq_some_iff.mpr (.decimal (Decimal.denotes_ofInt _) rfl)

/-- The greatest pattern is the key -1, in either case; the mark alone, a second mark, a sign
behind it and a seventeenth digit are refused. -/
example :
    [ascii "0xffffffffffffffff", ascii "0XFfFf", ascii "-0010", ascii "0x", ascii "0x0x1",
        ascii "0x-1", ascii "0x00000000000000001", ascii "9223372036854775808"].map parse?
      = [some (-1), some 65535, some (-10), none, none, none, none, none] := by
  decide

end IdMint.Key
