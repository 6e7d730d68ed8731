import IdMint.Proofs.Numeral
import IdMint.Text.Base62

/-!
# Short forms are faithful

The short form of an id that is not negative is a numeral, so it is read back as
that id and no two ids share one. Numbers are compared by comparing their short
forms: first the lengths, then the characters by their rank in the alphabet, which
is not their rank as bytes.

The empty text is where faithfulness ends. Zero and every negative number are
written with no character at all, and what is read from that is zero.

Any other text is read too, as long as its characters are of the alphabet and the
number that it denotes is one of the 64-bit integers; written again it lacks the
zeros in front. The reading can be done in words that wrap around. The test
before each step is made on words as well, and it is exact: it refuses just the steps
that would wrap.
-/

namespace IdMint.Base62

theorem digitValue?_digitByte {d : Nat} (h : d < 62) : digitValue? (digitByte d) = some d := by
  have hall : ∀ d ∈ List.range 62, digitValue? (digitByte d) = some d := by decide
  exact hall d (List.mem_range.mpr h)

theorem decode?_encode {n : Int64} (h : 0 ≤ n) : decode? (encode n) = some n := by
  have hlo : 0 ≤ n.toInt := by
    rw [Int64.le_iff_toInt_le, Int64.toInt_zero] at h
    exact h
  have hhi := n.toInt_lt
  have hlt := Numeral.digits_lt (by decide : 0 < 62) n.toInt.toNat
  have hvalue := Numeral.value_digits (by decide : 2 ≤ 62) n.toInt.toNat
  have hmax : Int64.maxValue.toNatClampNeg = 2 ^ 63 - 1 := rfl
  have hbounded : Numeral.boundedValue? 62 (2 ^ 63 - 1) (Numeral.digits 62 n.toInt.toNat)
      = some n.toInt.toNat := by
    rw [Numeral.boundedValue?_eq (by decide) fun d hd => by have := hlt d hd; omega, hvalue,
      if_pos (by omega)]
  rw [decode?, hmax, encode, Numeral.mapM_map_eq_some (fun _ => digitValue?_digitByte) hlt]
  show (Numeral.boundedValue? 62 (2 ^ 63 - 1) (Numeral.digits 62 n.toInt.toNat)).bind
    (fun m => some (Int64.ofInt m)) = some n
  rw [hbounded, Option.bind_some, Int.toNat_of_nonneg hlo, Int64.ofInt_toInt]

theorem encode_injOn_nonneg {m n : Int64} (hm : 0 ≤ m) (hn : 0 ≤ n)
    (h : encode m = encode n) : m = n := by
  have hdecode := decode?_encode hm
  rw [h, decode?_encode hn] at hdecode
  exact (Option.some.inj hdecode).symm

theorem encode_eq_nil_iff (n : Int64) : encode n = [] ↔ n ≤ 0 := by
  rw [encode, List.map_eq_nil_iff, Int64.le_iff_toInt_le, Int64.toInt_zero]
  constructor
  · intro h
    have hvalue := Numeral.value_digits (by decide : 2 ≤ 62) n.toInt.toNat
    rw [h] at hvalue
    have hzero : n.toInt.toNat = 0 := hvalue.symm
    omega
  · intro h
    rw [Int.toNat_of_nonpos h]
    rfl

/-- The characters in the order of the digits that they stand for. -/
def alphabet : Bytes := ascii "0123456789abcdefghijklmnopqrstuvwxyzABCDEFGHIJKLMNOPQRSTUVWXYZ"

/-- How many characters of the alphabet come before one. -/
def rank (b : UInt8) : Nat := alphabet.idxOf b

/-- The shorter text first, and texts of one length as in a dictionary that goes by the
alphabet. -/
def Precedes (s t : Bytes) : Prop := List.Shortlex (fun b c => rank b < rank c) s t

theorem rank_digitByte {d : Nat} (h : d < 62) : rank (digitByte d) = d := by
  have hall : ∀ d ∈ List.range 62, rank (digitByte d) = d := by decide
  exact hall d (List.mem_range.mpr h)

/-- Short forms are in the order of the numbers that they are written for. -/
theorem encode_precedes_encode_iff {m n : Int64} (hm : 0 ≤ m) (hn : 0 ≤ n) :
    Precedes (encode m) (encode n) ↔ m < n := by
  rw [Int64.le_iff_toInt_le, Int64.toInt_zero] at hm hn
  have hrank : ∀ c d, c < 62 → d < 62 →
      (rank (digitByte c) < rank (digitByte d) ↔ c < d) := by
    intro c d hc hd
    rw [rank_digitByte hc, rank_digitByte hd]
  have horder := Numeral.shortlex_map_digits_iff (r := fun b c => rank b < rank c)
    (by decide : 2 ≤ 62) hrank m.toInt.toNat n.toInt.toNat
  rw [Precedes, encode, encode, horder, Int64.lt_iff_toInt_lt]
  omega

/-! ## Reading any text -/

theorem eq_digitByte_of_digitValue? {b : UInt8} {d : Nat} (h : digitValue? b = some d) :
    d < 62 ∧ b = digitByte d := by
  have hall : ∀ k ∈ List.range 256, ∀ d ∈ digitValue? (UInt8.ofNat k),
      d < 62 ∧ UInt8.ofNat k = digitByte d := by decide +kernel
  have hb := hall b.toNat (List.mem_range.mpr b.toNat_lt) d
  rw [UInt8.ofNat_toNat] at hb
  exact hb h

theorem mem_alphabet_iff {b : UInt8} : b ∈ alphabet ↔ ∃ d, d < 62 ∧ b = digitByte d := by
  have hall : alphabet = (List.range 62).map digitByte := by decide
  rw [hall, List.mem_map]
  simp only [List.mem_range, eq_comm]

/-- The three ranges of characters that are read as digits are the alphabet, and a digit is
the place of its character there. -/
theorem digitValue?_eq_some_iff {b : UInt8} {d : Nat} :
    digitValue? b = some d ↔ b ∈ alphabet ∧ rank b = d := by
  rw [mem_alphabet_iff]
  constructor
  · intro h
    obtain ⟨hd, rfl⟩ := eq_digitByte_of_digitValue? h
    exact ⟨⟨d, hd, rfl⟩, rank_digitByte hd⟩
  · rintro ⟨⟨d, hd, rfl⟩, rfl⟩
    rw [rank_digitByte hd]
    exact digitValue?_digitByte hd

theorem rank_lt {b : UInt8} (h : b ∈ alphabet) : rank b < 62 := List.idxOf_lt_length_of_mem h

theorem digitByte_rank {b : UInt8} (h : b ∈ alphabet) : digitByte (rank b) = b := by
  obtain ⟨d, hd, rfl⟩ := mem_alphabet_iff.mp h
  rw [rank_digitByte hd]

theorem rank_eq_zero_iff (b : UInt8) : rank b = 0 ↔ b = '0'.toUInt8 := by
  have hfirst : alphabet = '0'.toUInt8 :: alphabet.tail := by decide
  rw [rank, hfirst, List.idxOf_cons, eq_comm (a := b)]
  by_cases h : '0'.toUInt8 = b
  · simp [h]
  · rw [beq_eq_false_iff_ne.mpr h, cond_false]
    exact iff_of_false (Nat.succ_ne_zero _) h

theorem forall_rank_lt {text : Bytes} (h : ∀ b ∈ text, b ∈ alphabet) :
    ∀ d ∈ text.map rank, d < 62 := by
  intro d hd
  obtain ⟨b, hb, rfl⟩ := List.mem_map.mp hd
  exact rank_lt (h b hb)

theorem map_digitByte_map_rank {text : Bytes} (h : ∀ b ∈ text, b ∈ alphabet) :
    (text.map rank).map digitByte = text := by
  rw [List.map_map]
  exact (List.map_congr_left fun b hb => digitByte_rank (h b hb)).trans (List.map_id text)

theorem mapM_digitValue?_eq_some_iff {text : Bytes} {ds : List Nat} :
    text.mapM digitValue? = some ds ↔ (∀ b ∈ text, b ∈ alphabet) ∧ text.map rank = ds := by
  constructor
  · intro h
    obtain ⟨rfl, hlt⟩ := Numeral.eq_map_of_mapM (fun _ _ => eq_digitByte_of_digitValue?) h
    constructor
    · intro b hb
      obtain ⟨d, hd, rfl⟩ := List.mem_map.mp hb
      exact mem_alphabet_iff.mpr ⟨d, hlt d hd, rfl⟩
    · rw [List.map_map]
      exact (List.map_congr_left fun d hd => rank_digitByte (hlt d hd)).trans (List.map_id ds)
  · rintro ⟨htext, rfl⟩
    have hread := Numeral.mapM_map_eq_some (fun _ => digitValue?_digitByte) (forall_rank_lt htext)
    rwa [map_digitByte_map_rank htext] at hread

/-- The number that a text of the alphabet denotes: its last character counts ones, the one
before it sixty-twos, and so on. -/
def denoted (text : Bytes) : Nat := Nat.ofDigits 62 (text.map rank).reverse

theorem denoted_eq (text : Bytes) : denoted text = Numeral.value 62 (text.map rank) :=
  (Numeral.value_eq_ofDigits 62 _).symm

theorem denoted_append_singleton (text : Bytes) (b : UInt8) :
    denoted (text ++ [b]) = denoted text * 62 + rank b := by
  rw [denoted_eq, denoted_eq, List.map_append, Numeral.value_append]
  simp [Numeral.value]

theorem boundedValue?_map_rank {text : Bytes} (h : ∀ b ∈ text, b ∈ alphabet) :
    Numeral.boundedValue? 62 (2 ^ 63 - 1) (text.map rank)
      = if denoted text ≤ 2 ^ 63 - 1 then some (denoted text) else none := by
  rw [denoted_eq]
  refine Numeral.boundedValue?_eq (by decide) fun d hd => ?_
  have hlt := forall_rank_lt h d hd
  omega

/-- A text is read exactly if all its characters are of the alphabet and some 64-bit integer is
the number that it denotes. -/
theorem decode?_eq_some_iff {text : Bytes} {n : Int64} :
    decode? text = some n ↔ (∀ b ∈ text, b ∈ alphabet) ∧ n.toInt = denoted text := by
  have hmax : Int64.maxValue.toNatClampNeg = 2 ^ 63 - 1 := rfl
  have hhi := n.toInt_lt
  rw [decode?, hmax]
  constructor
  · intro h
    obtain ⟨ds, hds, h⟩ := Option.bind_eq_some_iff.mp h
    obtain ⟨m, hm, h⟩ := Option.bind_eq_some_iff.mp h
    obtain ⟨htext, rfl⟩ := mapM_digitValue?_eq_some_iff.mp hds
    rw [boundedValue?_map_rank htext] at hm
    split at hm
    · next hle =>
        cases hm
        cases h
        exact ⟨htext, Int64.toInt_ofInt_of_le (by omega) (by omega)⟩
    · cases hm
  · rintro ⟨htext, hn⟩
    have hvalue := boundedValue?_map_rank htext
    rw [if_pos (by omega)] at hvalue
    refine Option.bind_eq_some_iff.mpr ⟨_, mapM_digitValue?_eq_some_iff.mpr ⟨htext, rfl⟩, ?_⟩
    refine Option.bind_eq_some_iff.mpr ⟨_, hvalue, ?_⟩
    rw [← hn, Int64.ofInt_toInt]

theorem isSome_decode?_iff (text : Bytes) :
    (decode? text).isSome ↔
      (∀ b ∈ text, b ∈ alphabet) ∧ (denoted text : Int) ≤ Int64.maxValue.toInt := by
  have hmax : Int64.maxValue.toInt = 2 ^ 63 - 1 := rfl
  rw [Option.isSome_iff_exists]
  simp only [decode?_eq_some_iff]
  constructor
  · rintro ⟨n, htext, hn⟩
    have hhi := n.toInt_lt
    exact ⟨htext, by omega⟩
  · rintro ⟨htext, hle⟩
    exact ⟨Int64.ofInt (denoted text), htext, Int64.toInt_ofInt_of_le (by omega) (by omega)⟩

/-- What was read is written with the same characters, the zeros in front left out. -/
theorem encode_of_decode? {text : Bytes} {n : Int64} (h : decode? text = some n) :
    encode n = text.dropWhile (· == '0'.toUInt8) := by
  obtain ⟨htext, hn⟩ := decode?_eq_some_iff.mp h
  have hzero : (· == 0) ∘ rank = (· == '0'.toUInt8) := by
    funext b
    exact Bool.eq_iff_iff.mpr (by simp [rank_eq_zero_iff])
  have hkept : ∀ b ∈ text.dropWhile (· == '0'.toUInt8), b ∈ alphabet := fun b hb =>
    htext b ((List.dropWhile_sublist _).subset hb)
  rw [encode, hn, Int.toNat_natCast, denoted_eq,
    Numeral.digits_value (by decide) (forall_rank_lt htext), List.dropWhile_map, hzero,
    map_digitByte_map_rank hkept]

theorem head?_encode_ne_zero {n : Int64} (h : 0 ≤ n) : (encode n).head? ≠ some '0'.toUInt8 := by
  have hkept := encode_of_decode? (decode?_encode h)
  have hfirst := List.head?_dropWhile_not (· == '0'.toUInt8) (encode n)
  rw [← hkept] at hfirst
  intro hzero
  rw [hzero] at hfirst
  exact absurd hfirst (by decide)

/-! ## Reading in machine words -/

/-- One character more, in words that wrap around: `none` for a foreign character, and where
the test says that the next value would not fit. -/
def readNext (n : Int64) (b : UInt8) : Option Int64 := do
  let d ← digitValue? b
  if (Int64.maxValue - Int64.ofNat d) / 62 < n then none else some (n * 62 + Int64.ofNat d)

/-- The word operations that read one character more give what they give on integers. -/
structure Exact (n : Int64) (b : UInt8) : Prop where
  difference : (Int64.maxValue - Int64.ofNat (rank b)).toInt = Int64.maxValue.toInt - rank b
  product : (n * 62).toInt = n.toInt * 62
  sum : (n * 62 + Int64.ofNat (rank b)).toInt = n.toInt * 62 + rank b

theorem exact_of_fits {n : Int64} {b : UInt8} (hn : 0 ≤ n.toInt) (hb : b ∈ alphabet)
    (hfits : n.toInt * 62 + rank b ≤ 2 ^ 63 - 1) : Exact n b := by
  have hd := rank_lt hb
  have hmax : Int64.maxValue.toInt = 2 ^ 63 - 1 := rfl
  have hbase : (62 : Int64).toInt = 62 := rfl
  have hrank : (Int64.ofNat (rank b)).toInt = rank b := Int64.toInt_ofNat_of_lt (by omega)
  have hproduct : (n * 62).toInt = n.toInt * 62 := by
    rw [Int64.toInt_mul, hbase]
    exact Int.bmod_eq_of_le (by omega) (by omega)
  constructor
  · rw [Int64.toInt_sub, hmax, hrank]
    exact Int.bmod_eq_of_le (by omega) (by omega)
  · exact hproduct
  · rw [Int64.toInt_add, hproduct, hrank]
    exact Int.bmod_eq_of_le (by omega) (by omega)

/-- The test refuses a step exactly if its value is above the greatest word. -/
theorem readNext_test_iff {d : Nat} (hd : d < 62) (n : Int64) :
    (Int64.maxValue - Int64.ofNat d) / 62 < n ↔ 2 ^ 63 - 1 < n.toInt * 62 + d := by
  have hall : ∀ d ∈ List.range 62,
      ((Int64.maxValue - Int64.ofNat d) / 62).toInt = (2 ^ 63 - 1 - (d : Int)) / 62 := by decide
  rw [Int64.lt_iff_toInt_lt, hall d (List.mem_range.mpr hd)]
  omega

theorem readNext_eq_some_iff {n m : Int64} {b : UInt8} (hn : 0 ≤ n.toInt) :
    readNext n b = some m ↔ b ∈ alphabet ∧ m.toInt = n.toInt * 62 + rank b := by
  constructor
  · intro h
    obtain ⟨d, hd, h⟩ := Option.bind_eq_some_iff.mp h
    obtain ⟨hb, rfl⟩ := digitValue?_eq_some_iff.mp hd
    split at h
    · cases h
    · next hfits =>
        cases h
        rw [readNext_test_iff (rank_lt hb)] at hfits
        exact ⟨hb, (exact_of_fits hn hb (by omega)).sum⟩
  · rintro ⟨hb, hm⟩
    have hhi := m.toInt_lt
    have hfits : ¬ (Int64.maxValue - Int64.ofNat (rank b)) / 62 < n := by
      rw [readNext_test_iff (rank_lt hb)]
      omega
    have hsum := (exact_of_fits hn hb (by omega)).sum
    refine Option.bind_eq_some_iff.mpr ⟨rank b, digitValue?_eq_some_iff.mpr ⟨hb, rfl⟩, ?_⟩
    rw [if_neg hfits, Int64.toInt_inj.mp (hsum.trans hm.symm)]

theorem decode?_append_singleton (front : Bytes) (b : UInt8) :
    decode? (front ++ [b]) = (decode? front).bind (readNext · b) := by
  apply Option.ext
  intro m
  have hhi := m.toInt_lt
  rw [decode?_eq_some_iff, Option.bind_eq_some_iff, denoted_append_singleton,
    List.forall_mem_append, List.forall_mem_singleton]
  constructor
  · rintro ⟨⟨hfront, hb⟩, hm⟩
    have hn : (Int64.ofInt (denoted front)).toInt = denoted front :=
      Int64.toInt_ofInt_of_le (by omega) (by omega)
    refine ⟨Int64.ofInt (denoted front), decode?_eq_some_iff.mpr ⟨hfront, hn⟩, ?_⟩
    rw [readNext_eq_some_iff (by omega), hn]
    exact ⟨hb, by omega⟩
  · rintro ⟨n, hread, hnext⟩
    obtain ⟨hfront, hn⟩ := decode?_eq_some_iff.mp hread
    obtain ⟨hb, hm⟩ := (readNext_eq_some_iff (by omega)).mp hnext
    exact ⟨⟨hfront, hb⟩, by omega⟩

/-- Reading is the same when it is done in words. -/
theorem decode?_eq_foldlM (text : Bytes) : decode? text = text.foldlM readNext 0 := by
  induction text using List.reverseRecOn with
  | nil => rfl
  | append_singleton front b ih =>
      rw [decode?_append_singleton, ih, List.foldlM_append]
      simp only [List.foldlM_cons, List.foldlM_nil, bind_pure]
      rfl

/-- Of a text that is read every beginning is read as well, and from there the next step is
exact. -/
theorem exact_of_decode? {text front rest : Bytes} {b : UInt8} {n : Int64}
    (h : decode? text = some n) (hcut : text = front ++ b :: rest) :
    ∃ v, decode? front = some v ∧ Exact v b := by
  rw [hcut, decode?_eq_foldlM, List.foldlM_append] at h
  obtain ⟨v, hfront, h⟩ := Option.bind_eq_some_iff.mp h
  rw [List.foldlM_cons] at h
  obtain ⟨w, hnext, -⟩ := Option.bind_eq_some_iff.mp h
  rw [← decode?_eq_foldlM] at hfront
  obtain ⟨-, hv⟩ := decode?_eq_some_iff.mp hfront
  have hnonneg : 0 ≤ v.toInt := by omega
  obtain ⟨hb, hw⟩ := (readNext_eq_some_iff hnonneg).mp hnext
  have hhi := w.toInt_lt
  exact ⟨v, hfront, exact_of_fits hnonneg hb (by omega)⟩

/-! ## The codec -/

/-- Numbers and texts correspond exactly. A number that is not negative is read back from its
text, which has no zero in front. A text is read exactly if its characters are of the alphabet
and its number does not exceed the greatest word, and it is read as that number, by word
operations that do not wrap around; the number is written without the zeros in front. And
numbers are in the order of their texts. -/
theorem codec_exact :
    (∀ n : Int64, 0 ≤ n →
      decode? (encode n) = some n ∧ (encode n).head? ≠ some '0'.toUInt8) ∧
    (∀ text : Bytes,
      ((decode? text).isSome ↔
        (∀ b ∈ text, b ∈ alphabet) ∧ (denoted text : Int) ≤ Int64.maxValue.toInt) ∧
      decode? text = text.foldlM readNext 0 ∧
      ∀ n, decode? text = some n →
        n.toInt = denoted text ∧
        (∀ front b rest, text = front ++ b :: rest →
          ∃ v, decode? front = some v ∧ Exact v b) ∧
        encode n = text.dropWhile (· == '0'.toUInt8)) ∧
    ∀ m n : Int64, 0 ≤ m → 0 ≤ n → (m < n ↔ Precedes (encode m) (encode n)) := by
  refine ⟨?_, ?_, ?_⟩
  · intro n hn
    exact ⟨decode?_encode hn, head?_encode_ne_zero hn⟩
  · intro text
    refine ⟨isSome_decode?_iff text, decode?_eq_foldlM text, ?_⟩
    intro n h
    exact ⟨(decode?_eq_some_iff.mp h).2, fun _ _ _ hcut => exact_of_decode? h hcut,
      encode_of_decode? h⟩
  · intro m n hm hn
    exact (encode_precedes_encode_iff hm hn).symm

/-- The greatest word, its text behind two zeros, the text of the number after it, and two
numbers whose texts are in the other order as bytes. -/
theorem codec_exact_at_greatest_word :
    let greatest := ascii "aZl8N0y58M7"
    0 ≤ Int64.maxValue ∧ encode Int64.maxValue = greatest ∧
      decode? greatest = some Int64.maxValue ∧
      decode? (ascii "00" ++ greatest) = some Int64.maxValue ∧
      greatest = (ascii "00" ++ greatest).dropWhile (· == '0'.toUInt8) ∧
      (decode? (ascii "aZl8N0y58M8")).isSome = false ∧
      Precedes (encode 10) (encode 36) ∧ encode 36 < encode 10 := by
  intro greatest
  have hnonneg : 0 ≤ Int64.maxValue := by decide
  have hwritten : encode Int64.maxValue = greatest := by decide
  have hpadded : decode? (ascii "00" ++ greatest) = some Int64.maxValue := by decide
  obtain ⟨hback, hread, horder⟩ := codec_exact
  have hgreatest := (hback Int64.maxValue hnonneg).1
  obtain ⟨-, -, hagain⟩ := (hread (ascii "00" ++ greatest)).2.2 _ hpadded
  rw [hwritten] at hgreatest hagain
  have hpast : ¬ (decode? (ascii "aZl8N0y58M8")).isSome := by
    rw [(hread _).1]
    rintro ⟨-, hle⟩
    exact absurd hle (by decide)
  exact ⟨hnonneg, hwritten, hgreatest, hpadded, hagain, Bool.eq_false_iff.mpr hpast,
    (horder 10 36 (by decide) (by decide)).mp (by decide), by decide⟩

end IdMint.Base62
