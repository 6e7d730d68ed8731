import IdMint.Obfuscation.BitTable
import Mathlib.Data.Finset.Card
import Mathlib.Data.Fintype.EquivFin

/-!
# A word is its bits, and a table moves them

A word is known by its 64 bits, and what a table does to them is said bit by bit:
a place of the result is set if a set bit was sent there. That is all that is
ever used of the shifting and joining.

Read backwards, a table gives a place the last of the bits that were sent there. If the
table is one-to-one, every place is reached by one bit, and that bit is taken home
again. On 64 places, being undone from one side is being undone from both, so a pair of
tables is checked in one direction. Such a table also keeps whatever is said of bits one
by one: the exclusive or of two words, the number of bits that are set, and each half of
the word if it sends neither half into the other.
-/

namespace IdMint.BitTable

/-- Whether bit `i` of a word is set. -/
def isSet (word : UInt64) (i : Fin 64) : Bool := word.toNat.testBit i.val

theorem eq_of_isSet {v w : UInt64} (h : ∀ i, isSet v i = isSet w i) : v = w := by
  apply UInt64.toNat_inj.mp
  apply Nat.eq_of_testBit_eq
  intro k
  rcases Nat.lt_or_ge k 64 with hk | hk
  · exact h ⟨k, hk⟩
  · have hpow : (2 : Nat) ^ 64 ≤ 2 ^ k := Nat.pow_le_pow_right (by decide) hk
    rw [Nat.testBit_lt_two_pow (Nat.lt_of_lt_of_le v.toNat_lt hpow),
      Nat.testBit_lt_two_pow (Nat.lt_of_lt_of_le w.toNat_lt hpow)]

/-! ## Moving -/

theorem toNat_ofNat_mod (i : Fin 64) : (UInt64.ofNat i.val).toNat % 64 = i.val := by
  rw [UInt64.toNat_ofNat']
  omega

theorem isSet_shiftLeft (word : UInt64) (i j : Fin 64) :
    isSet (word <<< UInt64.ofNat i.val) j
      = (decide (i.val ≤ j.val) && word.toNat.testBit (j.val - i.val)) := by
  rw [isSet, UInt64.toNat_shiftLeft, toNat_ofNat_mod, Nat.testBit_mod_two_pow,
    Nat.testBit_shiftLeft, decide_eq_true j.isLt, Bool.true_and]

theorem isSet_moveBit (t : BitTable) (word : UInt64) (i j : Fin 64) :
    isSet (t.moveBit word i) j = (decide (t.place i = j) && isSet word i) := by
  have hone : (1 : UInt64).toNat = 2 ^ 0 := rfl
  rw [moveBit, isSet_shiftLeft, isSet, bitAt, UInt64.toNat_and, UInt64.toNat_shiftRight,
    toNat_ofNat_mod, Nat.testBit_and, Nat.testBit_shiftRight, hone, Nat.testBit_two_pow]
  simp only [Fin.ext_iff]
  by_cases h : (t.place i).val = j.val
  · simp [h]
  · -- The one bit that is left after the shift down is at zero, so it comes to `t.place i`.
    simp only [h, decide_false, Bool.false_and, Bool.and_eq_false_iff, decide_eq_false_iff_not]
    omega

theorem isSet_foldl_moveBit (t : BitTable) (word : UInt64) (j : Fin 64) (bits : List (Fin 64)) :
    ∀ moved, isSet (bits.foldl (fun moved i => moved ||| t.moveBit word i) moved) j
      = (isSet moved j || bits.any fun i => decide (t.place i = j) && isSet word i) := by
  induction bits with
  | nil => simp
  | cons i bits ih =>
      intro moved
      have hor : isSet (moved ||| t.moveBit word i) j
          = (isSet moved j || isSet (t.moveBit word i) j) := by
        rw [isSet, UInt64.toNat_or, Nat.testBit_or]
        rfl
      rw [List.foldl_cons, ih, List.any_cons, hor, isSet_moveBit, Bool.or_assoc]

/-- A place is set exactly if a set bit is sent there. -/
theorem isSet_permute_iff (t : BitTable) (word : UInt64) (j : Fin 64) :
    isSet (t.permute word) j = true ↔ ∃ i, t.place i = j ∧ isSet word i = true := by
  have hzero : isSet 0 j = false := Nat.zero_testBit _
  rw [permute, isSet_foldl_moveBit, hzero]
  simp

/-- A bit that shares its place with no other is found there. -/
theorem isSet_permute_place {t : BitTable} (ht : Function.Injective t.place) (word : UInt64)
    (i : Fin 64) : isSet (t.permute word) (t.place i) = isSet word i := by
  apply Bool.eq_iff_iff.mpr
  rw [isSet_permute_iff]
  constructor
  · rintro ⟨k, hplace, hset⟩
    rwa [← ht hplace]
  · intro hset
    exact ⟨i, rfl, hset⟩

/-! ## Moving back -/

theorem permute_permute {t u : BitTable} (h : Function.LeftInverse u.place t.place)
    (word : UInt64) : u.permute (t.permute word) = word := by
  have ht : Function.Injective t.place := h.injective
  have hu : Function.Injective u.place := Finite.injective_iff_surjective.mpr h.surjective
  apply eq_of_isSet
  intro i
  have hback := isSet_permute_place hu (t.permute word) (t.place i)
  rwa [h i, isSet_permute_place ht] at hback

/-- The bits that are sent to a place. -/
def sentTo (t : BitTable) (j : Fin 64) : List (Fin 64) :=
  (List.finRange 64).filter fun i => t.place i = j

theorem mem_sentTo_iff {t : BitTable} {i j : Fin 64} : i ∈ t.sentTo j ↔ t.place i = j := by
  simp [sentTo]

theorem get_foldl_set (t : BitTable) (j : Fin 64) (bits : List (Fin 64)) :
    ∀ back : Vector (Fin 64) 64,
      (bits.foldl (fun back k => back.set (t.place k).val k (t.place k).isLt) back).get j
        = (bits.filter fun k => t.place k = j).getLast?.getD (back.get j) := by
  induction bits with
  | nil => intro back; rfl
  | cons k bits ih =>
      intro back
      rw [List.foldl_cons, ih]
      by_cases hk : t.place k = j
      · have hset : (back.set (t.place k).val k (t.place k).isLt).get j = k := by
          rw [← hk]
          exact Vector.getElem_set_self _
        rw [hset, List.filter_cons_of_pos (by simpa using hk), List.getLast?_cons, Option.getD_some]
      · have hplace : (t.place k).val ≠ j.val := fun h => hk (Fin.ext h)
        have hset : (back.set (t.place k).val k (t.place k).isLt).get j = back.get j :=
          Vector.getElem_set_ne _ _ hplace
        rw [hset, List.filter_cons_of_neg (by simpa using hk)]

/-- Read backwards, a table gives a place the last of the bits that were sent there. -/
theorem place_inverse_eq (t : BitTable) (j : Fin 64) :
    t.inverse.place j = (t.sentTo j).getLast?.getD 0 := by
  have hzero : (Vector.replicate 64 (0 : Fin 64)).get j = 0 := Vector.getElem_replicate _
  show Vector.get _ j = _
  rw [inverse, get_foldl_set, hzero]
  rfl

theorem place_inverse {t : BitTable} (ht : Function.Injective t.place) :
    Function.LeftInverse t.inverse.place t.place := by
  intro i
  have hmem : i ∈ t.sentTo (t.place i) := mem_sentTo_iff.mpr rfl
  rw [place_inverse_eq, List.getLast?_eq_some_getLast (List.ne_nil_of_mem hmem), Option.getD_some]
  exact ht (mem_sentTo_iff.mp (List.getLast_mem _))

/-- A table that is one-to-one is undone by its inverse. -/
theorem permute_inverse_permute {t : BitTable} (ht : Function.Injective t.place) (word : UInt64) :
    t.inverse.permute (t.permute word) = word := permute_permute (place_inverse ht) word

theorem permute_permute_inverse {t : BitTable} (ht : Function.Injective t.place) (word : UInt64) :
    t.permute (t.inverse.permute word) = word :=
  permute_permute
    ((place_inverse ht).rightInverse_of_surjective (Finite.injective_iff_surjective.mp ht)) word

/-! ## What a one-to-one table keeps -/

theorem isSet_xor (v w : UInt64) (i : Fin 64) : isSet (v ^^^ w) i = (isSet v i ^^ isSet w i) := by
  rw [isSet, UInt64.toNat_xor, Nat.testBit_xor]
  rfl

theorem permute_xor {t : BitTable} (ht : Function.Injective t.place) (v w : UInt64) :
    t.permute (v ^^^ w) = t.permute v ^^^ t.permute w := by
  apply eq_of_isSet
  intro j
  obtain ⟨i, rfl⟩ := Finite.surjective_of_injective ht j
  rw [isSet_xor, isSet_permute_place ht, isSet_permute_place ht, isSet_permute_place ht, isSet_xor]

/-- The bits of a word that are set. -/
def bits (word : UInt64) : Finset (Fin 64) := {i | isSet word i}

/-- How many bits of a word are set. -/
def ones (word : UInt64) : Nat := (bits word).card

theorem bits_permute (t : BitTable) (word : UInt64) :
    bits (t.permute word) = (bits word).image t.place := by
  ext j
  simp only [bits, Finset.mem_filter_univ, Finset.mem_image, isSet_permute_iff]
  simp only [and_comm]

theorem ones_permute {t : BitTable} (ht : Function.Injective t.place) (word : UInt64) :
    ones (t.permute word) = ones word := by
  rw [ones, bits_permute, Finset.card_image_of_injective _ ht, ones]

/-! ## Halves -/

/-- The 32 bits of a word from a place up. -/
def bitsFrom (start : Nat) (word : UInt64) : UInt32 := (word >>> UInt64.ofNat start).toUInt32

def lowHalf (word : UInt64) : UInt32 := bitsFrom 0 word

def highHalf (word : UInt64) : UInt32 := bitsFrom 32 word

theorem testBit_bitsFrom {start : Nat} (hstart : start ≤ 32) (word : UInt64) (k : Nat) :
    (bitsFrom start word).toNat.testBit k
      = (decide (k < 32) && word.toNat.testBit (start + k)) := by
  have hshift : (UInt64.ofNat start).toNat % 64 = start := by
    rw [UInt64.toNat_ofNat']
    omega
  rw [bitsFrom, UInt64.toNat_toUInt32, UInt64.toNat_shiftRight, hshift, Nat.testBit_mod_two_pow,
    Nat.testBit_shiftRight]

/-- The bit is one of the 32 from a place up. -/
def IsFrom (start : Nat) (i : Fin 64) : Prop := start ≤ i.val ∧ i.val < start + 32

theorem bitsFrom_eq_iff {start : Nat} (hstart : start ≤ 32) (v w : UInt64) :
    bitsFrom start v = bitsFrom start w ↔ ∀ i, IsFrom start i → isSet v i = isSet w i := by
  constructor
  · rintro h i ⟨hlo, hhi⟩
    have hbit := congrArg (fun half => half.toNat.testBit (i.val - start)) h
    have hk : i.val - start < 32 := by omega
    simp only [testBit_bitsFrom hstart] at hbit
    rwa [decide_eq_true hk, Bool.true_and, Bool.true_and, Nat.add_sub_cancel' hlo] at hbit
  · intro h
    apply UInt32.toNat_inj.mp
    apply Nat.eq_of_testBit_eq
    intro k
    rw [testBit_bitsFrom hstart, testBit_bitsFrom hstart]
    by_cases hk : k < 32
    · have hbit := h ⟨start + k, by omega⟩ ⟨Nat.le_add_right .., Nat.add_lt_add_left hk _⟩
      rw [isSet, isSet] at hbit
      rw [hbit]
    · rw [decide_eq_false hk, Bool.false_and, Bool.false_and]

/-- Bits that a table keeps among themselves depend on themselves alone. -/
theorem bitsFrom_permute_eq_iff {t : BitTable} (ht : Function.Injective t.place) {start : Nat}
    (hstart : start ≤ 32) (hkeeps : ∀ i, IsFrom start (t.place i) ↔ IsFrom start i)
    (v w : UInt64) :
    bitsFrom start (t.permute v) = bitsFrom start (t.permute w) ↔
      bitsFrom start v = bitsFrom start w := by
  rw [bitsFrom_eq_iff hstart, bitsFrom_eq_iff hstart]
  constructor
  · intro h i hi
    have hplace := h (t.place i) ((hkeeps i).mpr hi)
    rwa [isSet_permute_place ht, isSet_permute_place ht] at hplace
  · intro h j hj
    obtain ⟨i, rfl⟩ := Finite.surjective_of_injective ht j
    rw [isSet_permute_place ht, isSet_permute_place ht]
    exact h i ((hkeeps i).mp hj)

/-! ## The table in use -/

theorem fixed_place_injective : Function.Injective fixed.place := by
  have hall : ∀ i j, fixed.place i = fixed.place j → i = j := by decide
  exact fun i j h => hall i j h

/-- The table sends neither half of a word into the other. -/
theorem isFrom_fixed_place_iff {start : Nat} (hstart : start = 0 ∨ start = 32) (i : Fin 64) :
    IsFrom start (fixed.place i) ↔ IsFrom start i := by
  have hlow : ∀ i, (fixed.place i).val < 32 ↔ i.val < 32 := by decide
  have hi := hlow i
  rw [IsFrom, IsFrom]
  omega

theorem lowHalf_permute_fixed_eq_iff (v w : UInt64) :
    lowHalf (fixed.permute v) = lowHalf (fixed.permute w) ↔ lowHalf v = lowHalf w :=
  bitsFrom_permute_eq_iff fixed_place_injective (by decide) (isFrom_fixed_place_iff (.inl rfl)) v w

theorem highHalf_permute_fixed_eq_iff (v w : UInt64) :
    highHalf (fixed.permute v) = highHalf (fixed.permute w) ↔ highHalf v = highHalf w :=
  bitsFrom_permute_eq_iff fixed_place_injective (by decide) (isFrom_fixed_place_iff (.inr rfl)) v w

end IdMint.BitTable
