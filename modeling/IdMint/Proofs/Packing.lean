import IdMint.Snowflake.Layout
import Mathlib.Data.Int.ModEq

/-!
# Packing is addition, and an id forgets the sign

The fields are joined bit by bit in a word, but fields that keep to their own
bits do not overlap, and joining them is then adding them. So the word is the
plain integer `delta * 2 ^ 22 + low`, wrapped to 64 bits; everything below is
about that integer, and no bits are looked at again.

What an id loses is the wrapping and the sign, and nothing else: two ids agree
exactly if the plain integers agree or are opposite modulo `2 ^ 64`. Within
the 41 bits of the time neither can happen to two different tuples, and the
fields can be read back. A time before the epoch shares its id with one
after it, and `compose_collisions` says with which.
-/

namespace IdMint.Snowflake

/-! ## Words

Wrapping is a remainder: a word is known by its number modulo `2 ^ 64`, as a
signed word no less than as an unsigned one. -/

theorem natCast_toNat_ofInt (n : Int) : ((UInt64.ofInt n).toNat : Int) = n % 2 ^ 64 := by
  rw [UInt64.ofInt, UInt64.toNat_ofNat']
  omega

/-- Joining a multiple of `2 ^ places` with a number below it is adding them,
also after the first has wrapped: what wraps is still a multiple. -/
theorem ofInt_or_ofInt (places : Nat) {a b : Int} (hp : places ≤ 64)
    (ha : (2 : Int) ^ places ∣ a) (hb : 0 ≤ b) (hlt : b < 2 ^ places) :
    UInt64.ofInt a ||| UInt64.ofInt b = UInt64.ofInt (a + b) := by
  have hpow : (2 : Int) ^ places ∣ 2 ^ 64 := pow_dvd_pow 2 hp
  have hle : (2 : Int) ^ places ≤ 2 ^ 64 := Int.le_of_dvd (by decide) hpow
  have hb64 : b % 2 ^ 64 = b := Int.emod_eq_of_lt hb (by omega)
  obtain ⟨c, hc⟩ : 2 ^ places ∣ (UInt64.ofInt a).toNat := by
    apply Int.natCast_dvd_natCast.mp
    rw [natCast_toNat_ofInt, Int.emod_def, Int.natCast_pow]
    exact Int.dvd_sub ha (Int.dvd_mul_of_dvd_left hpow)
  have hnat : (UInt64.ofInt b).toNat < 2 ^ places := by
    apply Int.ofNat_lt.mp
    rw [natCast_toNat_ofInt, hb64, Int.natCast_pow]
    exact hlt
  have hsum : (UInt64.ofInt a ||| UInt64.ofInt b).toNat
      = (UInt64.ofInt a).toNat + (UInt64.ofInt b).toNat := by
    rw [UInt64.toNat_or, hc, Nat.two_pow_add_eq_or_of_lt hnat]
  have hfits := (UInt64.ofInt a ||| UInt64.ofInt b).toNat_lt
  have haInt := natCast_toNat_ofInt a
  have hbInt := natCast_toNat_ofInt b
  apply UInt64.toNat_inj.mp
  apply Int.ofNat_inj.mp
  rw [hsum] at hfits ⊢
  rw [natCast_toNat_ofInt]
  omega

theorem toInt64_ofInt (n : Int) : (UInt64.ofInt n).toInt64 = Int64.ofInt n := by
  have hn := natCast_toNat_ofInt n
  apply Int64.toBitVec_inj.mp
  apply BitVec.eq_of_toNat_eq
  show (UInt64.ofInt n).toNat = (BitVec.ofInt 64 n).toNat
  rw [BitVec.toNat_ofInt]
  omega

theorem ofInt_eq_ofInt_iff (a b : Int) :
    Int64.ofInt a = Int64.ofInt b ↔ a ≡ b [ZMOD 2 ^ 64] := by
  rw [← Int64.toInt_inj, Int64.toInt_ofInt, Int64.toInt_ofInt,
    Int.bmod_eq_bmod_iff_bmod_sub_eq_zero, ← Int.dvd_iff_bmod_eq_zero, Int.modEq_comm,
    Int.modEq_iff_dvd]
  rfl

/-- The word without its sign, as far as words go: the least word has no
opposite and stays. -/
def unsigned (w : Int64) : Int64 := if w < 0 then -w else w

/-- Only zero and the least word stand on the same side of zero as their
opposites, and both are their own. -/
theorem neg_eq_self_of_iff {w : Int64} (h : -w < 0 ↔ w < 0) : -w = w := by
  have hlo := w.le_toInt
  have hhi := w.toInt_lt
  rw [Int64.lt_iff_toInt_lt, Int64.lt_iff_toInt_lt, Int64.toInt_zero] at h
  apply Int64.toInt_inj.mp
  rw [Int64.toInt_neg, Int.bmod_def] at h ⊢
  split at h <;> omega

theorem unsigned_neg (w : Int64) : unsigned (-w) = unsigned w := by
  simp only [unsigned]
  split <;> split
  · next hn hw => rw [Int64.neg_neg, neg_eq_self_of_iff (iff_of_true hn hw)]
  · rw [Int64.neg_neg]
  · rfl
  · next hn hw => exact neg_eq_self_of_iff (iff_of_false hn hw)

theorem unsigned_eq_iff (v w : Int64) : unsigned v = unsigned w ↔ v = w ∨ v = -w := by
  constructor
  · intro h
    simp only [unsigned] at h
    split at h <;> split at h
    · exact .inl (Int64.neg_inj.mp h)
    · exact .inr (by rw [← h, Int64.neg_neg])
    · exact .inr h
    · exact .inl h
  · rintro (rfl | rfl)
    · rfl
    · exact unsigned_neg w

theorem unsigned_nonneg_or (w : Int64) : 0 ≤ unsigned w ∨ unsigned w = Int64.minValue := by
  have hlo := w.le_toInt
  have hhi := w.toInt_lt
  have hmin := Int64.toInt_minValue
  rw [Int64.le_iff_toInt_le, ← Int64.toInt_inj, Int64.toInt_zero]
  simp only [unsigned, Int64.lt_iff_toInt_lt, Int64.toInt_zero]
  split
  · rw [Int64.toInt_neg, Int.bmod_def]
    split <;> omega
  · next hw => exact .inl (Int.not_lt.mp hw)

theorem unsigned_eq_minValue_iff (w : Int64) :
    unsigned w = Int64.minValue ↔ w = Int64.minValue := by
  have h := unsigned_eq_iff w Int64.minValue
  rwa [show unsigned Int64.minValue = Int64.minValue from rfl,
    show -Int64.minValue = Int64.minValue from rfl, or_self] at h

namespace Fields

/-! ## The plain integer -/

/-- Milliseconds since the epoch of ids. -/
def delta (f : Fields) : Int := f.timestampMillis - epochMillis

/-- All that lies below the milliseconds, as one number. -/
def low (f : Fields) : Int := f.datacenter * 2 ^ 17 + f.worker * 2 ^ 12 + f.sequence

/-- The id that the fields would have if ids were unbounded integers. -/
def plain (f : Fields) : Int := f.delta * 2 ^ 22 + f.low

/-- Every field below the milliseconds keeps to its own bits. -/
structure Fit (f : Fields) : Prop where
  datacenter : 0 ≤ f.datacenter ∧ f.datacenter < 2 ^ 5
  worker : 0 ≤ f.worker ∧ f.worker < 2 ^ 5
  sequence : 0 ≤ f.sequence ∧ f.sequence < 2 ^ 12

theorem Fit.low_bounds {f : Fields} (h : f.Fit) : 0 ≤ f.low ∧ f.low < 2 ^ 22 := by
  have hd := h.datacenter
  have hw := h.worker
  have hs := h.sequence
  simp only [low]
  omega

theorem shifted_eq {places : Nat} (hp : places < 64) (n : Int) :
    shifted n places = UInt64.ofInt (n * 2 ^ places) := by
  have hplaces : (UInt64.ofNat places).toNat % 64 = places := by
    rw [UInt64.toNat_ofNat']
    omega
  apply UInt64.toNat_inj.mp
  apply Int.ofNat_inj.mp
  rw [shifted, UInt64.toNat_shiftLeft, hplaces, Nat.shiftLeft_eq, Int.natCast_emod,
    Int.natCast_mul, Int.natCast_pow, natCast_toNat_ofInt, natCast_toNat_ofInt]
  exact (Int.mod_modEq n (2 ^ 64)).mul_right (2 ^ places)

theorem pack_eq {f : Fields} (h : f.Fit) : f.pack = UInt64.ofInt f.plain := by
  have hd := h.datacenter
  have hw := h.worker
  have hs := h.sequence
  rw [pack, timeShift, datacenterShift, sequenceBits, addressBits, shifted_eq (by decide),
    shifted_eq (by decide), shifted_eq (by decide), shifted_eq (by decide),
    ofInt_or_ofInt 22 (by decide) (by omega) (by omega) (by omega),
    ofInt_or_ofInt 17 (by decide) (by omega) (by omega) (by omega),
    ofInt_or_ofInt 12 (by decide) (by omega) (by omega) (by omega)]
  congr 1
  simp only [plain, low, delta]
  omega

theorem compose_eq {f : Fields} (h : f.Fit) : f.compose = unsigned (Int64.ofInt f.plain) := by
  rw [compose, pack_eq h, toInt64_ofInt]
  rfl

theorem compose_eq_iff {a b : Fields} (ha : a.Fit) (hb : b.Fit) :
    a.compose = b.compose ↔
      a.plain ≡ b.plain [ZMOD 2 ^ 64] ∨ a.plain ≡ -b.plain [ZMOD 2 ^ 64] := by
  rw [compose_eq ha, compose_eq hb, unsigned_eq_iff, Int64.neg_ofInt, ofInt_eq_ofInt_iff,
    ofInt_eq_ofInt_iff]

/-! ## Times that an id can hold

For the 41 bits of milliseconds after the epoch the plain integer is a word and
not negative, so the id is that integer and the fields come back out of it. -/

/-- The milliseconds fit the 41 bits that an id has for them. -/
def InWindow (f : Fields) : Prop := 0 ≤ f.delta ∧ f.delta < 2 ^ 41

theorem plain_bounds {f : Fields} (h : f.Fit) (hw : f.InWindow) :
    0 ≤ f.plain ∧ f.plain < 2 ^ 63 := by
  have hlow := h.low_bounds
  obtain ⟨hlo, hhi⟩ := hw
  simp only [plain]
  omega

theorem toInt_compose {f : Fields} (h : f.Fit) (hw : f.InWindow) : f.compose.toInt = f.plain := by
  obtain ⟨hlo, hhi⟩ := plain_bounds h hw
  have hword : (Int64.ofInt f.plain).toInt = f.plain :=
    Int64.toInt_ofInt_of_le (by omega) hhi
  have hpos : ¬ Int64.ofInt f.plain < 0 := by
    rw [Int64.lt_iff_toInt_lt, hword, Int64.toInt_zero]
    omega
  rw [compose_eq h, unsigned, if_neg hpos, hword]

theorem lowest_eq (bits : Nat) (n : Int) : lowest bits n = n % 2 ^ bits := by
  rw [lowest, Nat.one_shiftLeft]
  push_cast
  rfl

/-- Shifting the sign along is dividing, and what is shifted out is a remainder. -/
theorem decompose_eq (id : Id) :
    decompose id =
      { timestampMillis := id.toInt / 2 ^ 22 + epochMillis, datacenter := id.toInt / 2 ^ 17 % 2 ^ 5,
        worker := id.toInt / 2 ^ 12 % 2 ^ 5, sequence := id.toInt % 2 ^ 12 } := by
  simp only [decompose, lowest_eq, Int.shiftRight_eq_div_pow, timeShift, datacenterShift,
    sequenceBits, addressBits]
  rfl

theorem decompose_compose {f : Fields} (h : f.Fit) (hw : f.InWindow) :
    decompose f.compose = f := by
  have hid := toInt_compose h hw
  obtain ⟨t, d, w, s⟩ := f
  obtain ⟨hd, hw, hs⟩ := h
  rw [decompose_eq, hid]
  simp only [plain, low, delta] at hd hw hs ⊢
  simp only [mk.injEq]
  omega

theorem compose_injOn_window {a b : Fields} (ha : a.Fit) (hb : b.Fit) (hwa : a.InWindow)
    (hwb : b.InWindow) (h : a.compose = b.compose) : a = b := by
  rw [← decompose_compose ha hwa, ← decompose_compose hb hwb, h]

/-! ## Which tuples share an id

Before the epoch the low bits still count upward while the time counts
downward, so the tuple opposite to one after the epoch either has no low bits
at all or borrows one millisecond for them. -/

theorem compose_eq_across_epoch_iff {a b : Fields} (ha : a.Fit) (hb : b.Fit) (hwa : a.InWindow)
    (hlo : -2 ^ 41 ≤ b.delta) (hhi : b.delta < 0) :
    a.compose = b.compose ↔
      (a.low = 0 ∧ b.low = 0 ∧ b.delta = -a.delta) ∨
        (a.low + b.low = 2 ^ 22 ∧ a.delta + b.delta = -1) := by
  have hla := ha.low_bounds
  have hlb := hb.low_bounds
  obtain ⟨hloa, hhia⟩ := hwa
  rw [compose_eq_iff ha hb]
  simp only [Int.ModEq, plain]
  omega

theorem compose_eq_minValue_iff {f : Fields} (h : f.Fit) :
    f.compose = Int64.minValue ↔ f.low = 0 ∧ f.delta ≡ 2 ^ 41 [ZMOD 2 ^ 42] := by
  have hlow := h.low_bounds
  rw [compose_eq h, unsigned_eq_minValue_iff,
    show Int64.minValue = Int64.ofInt (-2 ^ 63) from rfl, ofInt_eq_ofInt_iff]
  simp only [Int.ModEq, plain]
  omega

theorem compose_eq_zero_iff {f : Fields} (h : f.Fit) :
    f.compose = 0 ↔ f.low = 0 ∧ f.delta ≡ 0 [ZMOD 2 ^ 42] := by
  have hlow := h.low_bounds
  have hword := unsigned_eq_iff (Int64.ofInt f.plain) 0
  rw [show unsigned 0 = 0 from rfl, show -(0 : Int64) = 0 from rfl, or_self] at hword
  rw [compose_eq h, hword, show (0 : Int64) = Int64.ofInt 0 from rfl, ofInt_eq_ofInt_iff]
  simp only [Int.ModEq, plain]
  omega

theorem low_eq_zero_iff {f : Fields} (h : f.Fit) :
    f.low = 0 ↔ f.datacenter = 0 ∧ f.worker = 0 ∧ f.sequence = 0 := by
  have hd := h.datacenter
  have hw := h.worker
  have hs := h.sequence
  simp only [low]
  omega

/-- The collision law. Ids are shared by tuples whose plain integers agree or
are opposite modulo `2 ^ 64`; so never by two tuples within the 41 bits of the
time, and across the epoch exactly by opposite times without low bits or by
low bits that add up to one millisecond. An id is negative only as the least
word. -/
theorem compose_collisions {a b : Fields} (ha : a.Fit) (hb : b.Fit) :
    (a.compose = b.compose ↔
      a.plain ≡ b.plain [ZMOD 2 ^ 64] ∨ a.plain ≡ -b.plain [ZMOD 2 ^ 64]) ∧
    (0 ≤ a.delta → a.delta < 2 ^ 41 → 0 ≤ b.delta → b.delta < 2 ^ 41 →
      a.compose = b.compose → a = b) ∧
    (0 ≤ a.delta → a.delta < 2 ^ 41 → -2 ^ 41 ≤ b.delta → b.delta < 0 →
      (a.compose = b.compose ↔
        (a.low = 0 ∧ b.low = 0 ∧ b.delta = -a.delta) ∨
          (a.low + b.low = 2 ^ 22 ∧ a.delta + b.delta = -1))) ∧
    (0 ≤ a.compose ∨ a.compose = Int64.minValue) ∧
    (a.compose = Int64.minValue ↔
      (a.datacenter = 0 ∧ a.worker = 0 ∧ a.sequence = 0) ∧
        a.delta ≡ 2 ^ 41 [ZMOD 2 ^ 42]) := by
  refine ⟨compose_eq_iff ha hb, ?_, ?_, ?_, ?_⟩
  · intro hloa hhia hlob hhib h
    exact compose_injOn_window ha hb ⟨hloa, hhia⟩ ⟨hlob, hhib⟩ h
  · intro hloa hhia hlob hhib
    exact compose_eq_across_epoch_iff ha hb ⟨hloa, hhia⟩ hlob hhib
  · rw [compose_eq ha]
    exact unsigned_nonneg_or _
  · rw [compose_eq_minValue_iff ha, low_eq_zero_iff ha]

/-- Four milliseconds after the epoch and five before it, with low bits that add up to
one millisecond: two different tuples of one id. -/
theorem compose_collisions_across_epoch :
    (⟨epochMillis + 4, 1, 2, 3⟩ : Fields).Fit ∧ (⟨epochMillis - 5, 30, 29, 4093⟩ : Fields).Fit ∧
      (⟨epochMillis + 4, 1, 2, 3⟩ : Fields).compose
        = (⟨epochMillis - 5, 30, 29, 4093⟩ : Fields).compose := by
  have ha : (⟨epochMillis + 4, 1, 2, 3⟩ : Fields).Fit := ⟨by decide, by decide, by decide⟩
  have hb : (⟨epochMillis - 5, 30, 29, 4093⟩ : Fields).Fit := ⟨by decide, by decide, by decide⟩
  have hlaw := (compose_collisions ha hb).2.2.1 (by decide) (by decide) (by decide) (by decide)
  exact ⟨ha, hb, hlaw.mpr (.inr (by decide))⟩

/-! ## Unpacking and packing again -/

theorem fit_decompose (id : Id) : (decompose id).Fit := by
  rw [decompose_eq]
  constructor <;> simp only [] <;> omega

/-- The fields of a word are its bits, so nothing but its notation has changed. -/
theorem plain_decompose (id : Id) : (decompose id).plain = id.toInt := by
  rw [decompose_eq]
  simp only [plain, low, delta]
  omega

theorem delta_decompose_bounds (id : Id) :
    -2 ^ 41 ≤ (decompose id).delta ∧ (decompose id).delta < 2 ^ 41 := by
  have hplain := plain_decompose id
  have hlow := (fit_decompose id).low_bounds
  have hlo := id.le_toInt
  have hhi := id.toInt_lt
  rw [plain] at hplain
  omega

theorem compose_decompose (id : Id) : (decompose id).compose = unsigned id := by
  rw [compose_eq (fit_decompose id), plain_decompose, Int64.ofInt_toInt]

/-- Packing and unpacking undo each other: fields that an id has room for come back out of
it, and a word packed again is that word without its sign, whatever the word. -/
theorem packing_round_trip :
    (∀ f : Fields, f.Fit → f.InWindow → decompose f.compose = f) ∧
    (∀ id : Id,
      (decompose id).Fit ∧ (-2 ^ 41 ≤ (decompose id).delta ∧ (decompose id).delta < 2 ^ 41) ∧
      (0 ≤ id → (decompose id).compose = id) ∧ (id < 0 → (decompose id).compose = -id)) ∧
    (decompose Int64.minValue).compose = Int64.minValue := by
  refine ⟨fun f => decompose_compose, fun id => ?_, ?_⟩
  · refine ⟨fit_decompose id, delta_decompose_bounds id, ?_, ?_⟩
    · intro hid
      rw [compose_decompose, unsigned, if_neg (Int64.not_lt.mpr hid)]
    · intro hid
      rw [compose_decompose, unsigned, if_pos hid]
  · rw [compose_decompose]
    rfl

/-- The last slot of the last millisecond comes back, and the word of ones is packed again
as one. -/
theorem packing_round_trip_at_the_ends :
    decompose (⟨epochMillis + 2 ^ 41 - 1, 31, 31, 4095⟩ : Fields).compose
        = ⟨epochMillis + 2 ^ 41 - 1, 31, 31, 4095⟩ ∧
      (-1 : Id) < 0 ∧ (decompose (-1)).compose = 1 := by
  refine ⟨packing_round_trip.1 _ ⟨by decide, by decide, by decide⟩ ⟨by decide, by decide⟩,
    by decide, ?_⟩
  exact (packing_round_trip.2.1 (-1)).2.2.2 (by decide)

end Fields

end IdMint.Snowflake
