import IdMint.Proofs.Masking

/-!
# What masked values give away

A mask hides where a sequence stands, and hardly anything else. The key falls out
of the exclusive or of two masked values, so how their bits differ is how the bits of
the plain values differ, moved by the table that everybody knows: as many of them, and
each half on its own.

One value known in both forms gives away the key. To be masked as a given value is to
have a given key, `obfuscate_eq_iff`, and all that is said of recovered keys is read off
that equivalence. It leaves one case out. The key that takes a value to where the table
alone would take it is zero, and zero is not used as a key, so there the mask of the
recovered key does something else.
-/

namespace IdMint

namespace Obfuscator

/-! ## Differences -/

/-- By which bits the masked forms of two integers differ. -/
def difference (o : Obfuscator) (x y : Int64) : Int64 := o.obfuscate x ^^^ o.obfuscate y

theorem masked_xor_masked (o : Obfuscator) (x y : Int64) :
    (x.toUInt64 ^^^ o.key.toUInt64) ^^^ (y.toUInt64 ^^^ o.key.toUInt64) = (x ^^^ y).toUInt64 := by
  calc (x.toUInt64 ^^^ o.key.toUInt64) ^^^ (y.toUInt64 ^^^ o.key.toUInt64)
      = (x.toUInt64 ^^^ y.toUInt64) ^^^ (o.key.toUInt64 ^^^ o.key.toUInt64) := by ac_rfl
    _ = (x ^^^ y).toUInt64 := by
        rw [UInt64.xor_self, UInt64.xor_zero, Int64.toUInt64_xor]

theorem difference_eq (o : Obfuscator) (x y : Int64) :
    o.difference x y = (BitTable.fixed.permute (x ^^^ y).toUInt64).toInt64 := by
  rw [difference, obfuscate, obfuscate, ← UInt64.toInt64_xor,
    ← BitTable.permute_xor BitTable.fixed_place_injective, masked_xor_masked]

theorem toUInt64_difference (o : Obfuscator) (x y : Int64) :
    (o.difference x y).toUInt64 = BitTable.fixed.permute (x ^^^ y).toUInt64 := by
  rw [difference_eq, UInt64.toUInt64_toInt64]

/-- A mask is one-to-one, and affine over exclusive or. The bits by which two masked values
differ are those by which the plain ones do, moved by the fixed table: they are the same under
every key, they are as many, and those in either half of the word are determined by the plain
difference in that half. -/
theorem masks_affine (key : Int64) :
    (∀ x, (ofKey key).deobfuscate ((ofKey key).obfuscate x) = x) ∧
    (∀ y, (ofKey key).obfuscate ((ofKey key).deobfuscate y) = y) ∧
    ∀ x y,
      (ofKey key).obfuscate x ^^^ (ofKey key).obfuscate y
        = (BitTable.fixed.permute (x ^^^ y).toUInt64).toInt64 ∧
      (∀ key', (ofKey key').difference x y = (ofKey key).difference x y) ∧
      BitTable.ones ((ofKey key).difference x y).toUInt64 = BitTable.ones (x ^^^ y).toUInt64 ∧
      ∀ key' x' y',
        (BitTable.lowHalf ((ofKey key).difference x y).toUInt64
            = BitTable.lowHalf ((ofKey key').difference x' y').toUInt64 ↔
          BitTable.lowHalf (x ^^^ y).toUInt64 = BitTable.lowHalf (x' ^^^ y').toUInt64) ∧
        (BitTable.highHalf ((ofKey key).difference x y).toUInt64
            = BitTable.highHalf ((ofKey key').difference x' y').toUInt64 ↔
          BitTable.highHalf (x ^^^ y).toUInt64 = BitTable.highHalf (x' ^^^ y').toUInt64) := by
  refine ⟨deobfuscate_obfuscate _, obfuscate_deobfuscate _, ?_⟩
  intro x y
  refine ⟨difference_eq _ x y, ?_, ?_, ?_⟩
  · intro key'
    rw [difference_eq, difference_eq]
  · rw [toUInt64_difference, BitTable.ones_permute BitTable.fixed_place_injective]
  · intro key' x' y'
    rw [toUInt64_difference, toUInt64_difference]
    exact ⟨BitTable.lowHalf_permute_fixed_eq_iff _ _, BitTable.highHalf_permute_fixed_eq_iff _ _⟩

/-! ## Known pairs -/

/-- A key is recovered from a value and the form that it takes under the key, be that key in
use or not. -/
theorem recoverKey_eq_iff (plain masked key : Int64) :
    recoverKey plain masked = key ↔
      (BitTable.fixed.permute (plain.toUInt64 ^^^ key.toUInt64)).toInt64 = masked := by
  constructor
  · rintro rfl
    have hback := BitTable.permute_permute_inverse BitTable.fixed_place_injective masked.toUInt64
    rw [recoverKey, UInt64.toUInt64_toInt64, UInt64.xor_comm _ plain.toUInt64,
      ← UInt64.xor_assoc, UInt64.xor_self, UInt64.zero_xor, BitTable.fixedInverse, hback,
      Int64.toInt64_toUInt64]
  · rintro rfl
    have hback := BitTable.permute_inverse_permute BitTable.fixed_place_injective
      (plain.toUInt64 ^^^ key.toUInt64)
    rw [recoverKey, UInt64.toUInt64_toInt64, BitTable.fixedInverse, hback,
      UInt64.xor_comm plain.toUInt64, UInt64.xor_assoc, UInt64.xor_self, UInt64.xor_zero,
      Int64.toInt64_toUInt64]

theorem obfuscate_eq_iff (o : Obfuscator) (plain masked : Int64) :
    o.obfuscate plain = masked ↔ recoverKey plain masked = o.key :=
  (recoverKey_eq_iff plain masked o.key).symm

theorem recoverKey_obfuscate (o : Obfuscator) (plain : Int64) :
    recoverKey plain (o.obfuscate plain) = o.key := (o.obfuscate_eq_iff plain _).mp rfl

theorem recoverKey_eq_zero_iff (plain masked : Int64) :
    recoverKey plain masked = 0 ↔
      masked = (BitTable.fixed.permute plain.toUInt64).toInt64 := by
  have hzero : (0 : Int64).toUInt64 = 0 := rfl
  rw [recoverKey_eq_iff, hzero, UInt64.xor_zero, eq_comm]

theorem obfuscate_eq_obfuscate_iff (o o' : Obfuscator) (plain : Int64) :
    o.obfuscate plain = o'.obfuscate plain ↔ o.key = o'.key := by
  rw [obfuscate_eq_iff, recoverKey_obfuscate, eq_comm]

theorem deobfuscate_eq_deobfuscate_iff (o o' : Obfuscator) (masked : Int64) :
    o.deobfuscate masked = o'.deobfuscate masked ↔ o.key = o'.key := by
  constructor
  · intro h
    have hmasked := o.obfuscate_deobfuscate masked
    rw [h] at hmasked
    exact (obfuscate_eq_obfuscate_iff o o' _).mp
      (hmasked.trans (o'.obfuscate_deobfuscate masked).symm)
  · intro h
    rw [deobfuscate, deobfuscate, h]

theorem ofKey_key_eq (key : Int64) : (ofKey key).key = if key = 0 then defaultKey else key := by
  rw [ofKey]
  split <;> rfl

/-- The recovered key does take the value to its masked form, unless it is zero. -/
theorem obfuscate_recoverKey_iff (plain masked : Int64) :
    (ofKey (recoverKey plain masked)).obfuscate plain = masked ↔ recoverKey plain masked ≠ 0 := by
  rw [obfuscate_eq_iff, ofKey_key_eq]
  split
  · next h =>
      rw [h]
      exact iff_of_false (by decide) (not_not_intro rfl)
  · next h => exact iff_of_true rfl h

/-- A value known in both forms gives away the key. What is recovered from the pair is the key
in use, so two masks agree on a value in either direction only if their keys are the same, and
the mask of the recovered key agrees with the first one everywhere. Of any two values, the mask
of the recovered key takes one to the other unless the fixed table alone does, which is the case
in which the recovered key is zero. -/
theorem known_pair_gives_key :
    (∀ key plain,
      recoverKey plain ((ofKey key).obfuscate plain) = (ofKey key).key ∧
      (ofKey key).key = if key = 0 then defaultKey else key) ∧
    (∀ key key' x,
      ((ofKey key).obfuscate x = (ofKey key').obfuscate x ↔ (ofKey key).key = (ofKey key').key) ∧
      ((ofKey key).deobfuscate x = (ofKey key').deobfuscate x ↔
        (ofKey key).key = (ofKey key').key)) ∧
    (∀ key plain x,
      (ofKey (recoverKey plain ((ofKey key).obfuscate plain))).obfuscate x
        = (ofKey key).obfuscate x ∧
      (ofKey (recoverKey plain ((ofKey key).obfuscate plain))).deobfuscate x
        = (ofKey key).deobfuscate x) ∧
    ∀ plain masked,
      ((ofKey (recoverKey plain masked)).obfuscate plain = masked ↔
        masked ≠ (BitTable.fixed.permute plain.toUInt64).toInt64) ∧
      (recoverKey plain masked = 0 ↔
        masked = (BitTable.fixed.permute plain.toUInt64).toInt64) := by
  refine ⟨?_, ?_, ?_, ?_⟩
  · intro key plain
    exact ⟨recoverKey_obfuscate _ plain, ofKey_key_eq key⟩
  · intro key key' x
    exact ⟨obfuscate_eq_obfuscate_iff _ _ x, deobfuscate_eq_deobfuscate_iff _ _ x⟩
  · intro key plain x
    rw [recoverKey_obfuscate, ofKey_key]
    exact ⟨rfl, rfl⟩
  · intro plain masked
    have hzero := recoverKey_eq_zero_iff plain masked
    exact ⟨(obfuscate_recoverKey_iff plain masked).trans (not_congr hzero), hzero⟩

end Obfuscator

end IdMint
