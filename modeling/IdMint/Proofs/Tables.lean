import IdMint.Proofs.MovedBits

/-!
# Which tables lose nothing

A place of the result is the OR of the bits that are sent there. Where these are two or
more it only tells whether any of them is set, and where there are none it tells nothing.

That such a table loses words is seen on the words with a single bit. A table makes of one
of them the word whose single bit is the place, so two bits with one place give two words
with one result. A table that loses no word is therefore one-to-one, and as there are no
more places than bits it reaches every place. The way back is its inverse: both ways around
for the table, so for the words too, and the inverse of the inverse is the table, place by
place.
-/

namespace IdMint.BitTable

theorem isSet_permute (t : BitTable) (word : UInt64) (j : Fin 64) :
    isSet (t.permute word) j = (t.sentTo j).any (isSet word) := by
  apply Bool.eq_iff_iff.mpr
  rw [isSet_permute_iff, List.any_eq_true]
  simp only [mem_sentTo_iff]

/-! ## Words with a single bit -/

def single (i : Fin 64) : UInt64 := 1 <<< UInt64.ofNat i.val

theorem isSet_single (i j : Fin 64) : isSet (single i) j = decide (i = j) := by
  have hone : (1 : UInt64).toNat = 2 ^ 0 := rfl
  rw [single, isSet_shiftLeft, hone, Nat.testBit_two_pow]
  simp only [Fin.ext_iff, ← Bool.decide_and, decide_eq_decide]
  omega

theorem single_injective : Function.Injective single := by
  intro i k h
  have hset := congrArg (fun word => isSet word k) h
  simpa [isSet_single] using hset

theorem permute_single (t : BitTable) (i : Fin 64) :
    t.permute (single i) = single (t.place i) := by
  apply eq_of_isSet
  intro j
  apply Bool.eq_iff_iff.mpr
  rw [isSet_permute_iff]
  simp [isSet_single]

theorem place_injective_of_permute {t : BitTable} (h : Function.Injective t.permute) :
    Function.Injective t.place := by
  intro i k hplace
  apply single_injective
  apply h
  rw [permute_single, permute_single, hplace]

theorem permute_bijective_iff {t : BitTable} :
    Function.Bijective t.permute ↔ Function.Bijective t.place := by
  constructor
  · intro h
    exact (place_injective_of_permute h.injective).bijective_of_finite
  · intro h
    exact Function.bijective_iff_has_inverse.mpr
      ⟨t.inverse.permute, permute_inverse_permute h.injective, permute_permute_inverse h.injective⟩

/-! ## The inverse of the inverse -/

theorem eq_of_place {t u : BitTable} (h : ∀ i, t.place i = u.place i) : t = u := by
  obtain ⟨places⟩ := t
  obtain ⟨places'⟩ := u
  congr 1
  ext i hi
  exact congrArg Fin.val (h ⟨i, hi⟩)

theorem inverse_inverse {t : BitTable} (ht : Function.Bijective t.place) :
    t.inverse.inverse = t := by
  have hback := place_inverse ht.injective
  have hforth := hback.rightInverse_of_surjective ht.surjective
  -- The inverse is one-to-one too, so it is undone by its own inverse as well as by the table.
  have hagain := place_inverse hforth.injective
  apply eq_of_place
  intro i
  calc t.inverse.inverse.place i
      = t.inverse.inverse.place (t.inverse.place (t.place i)) := by rw [hback i]
    _ = t.place i := hagain (t.place i)

/-! ## Main statement -/

/-- Of every table: a place of the result is the OR of the bits that are sent there, and read
backwards the table gives a place the last of these bits. Words are moved one-to-one, and all of
them reached, exactly if bits are. Then the inverse undoes the table and is undone by it, the
inverse of the inverse is the table again, and a word keeps the number of its set bits. -/
theorem lossless_iff_one_to_one (t : BitTable) :
    (∀ word j, isSet (t.permute word) j = (t.sentTo j).any (isSet word)) ∧
    (∀ j, t.inverse.place j = (t.sentTo j).getLast?.getD 0) ∧
    (Function.Bijective t.permute ↔ Function.Bijective t.place) ∧
    (Function.Bijective t.place →
      Function.LeftInverse t.inverse.permute t.permute ∧
      Function.RightInverse t.inverse.permute t.permute ∧
      t.inverse.inverse = t ∧
      ∀ word, ones (t.permute word) = ones word) := by
  refine ⟨t.isSet_permute, t.place_inverse_eq, permute_bijective_iff, fun ht => ?_⟩
  exact ⟨permute_inverse_permute ht.injective, permute_permute_inverse ht.injective,
    inverse_inverse ht, ones_permute ht.injective⟩

/-- The table in use, and one that sends every bit to the lowest place. -/
theorem lossless_iff_one_to_one_of_two_tables :
    Function.Bijective fixed.place ∧
    fixed.permute (fixedInverse.permute 0x0123456789abcdef) = 0x0123456789abcdef ∧
    fixedInverse.inverse = fixed ∧
    ones (fixed.permute 0x0123456789abcdef) = ones 0x0123456789abcdef ∧
    ¬ Function.Bijective (permute ⟨Vector.replicate 64 0⟩) := by
  have hfixed : Function.Bijective fixed.place := fixed_place_injective.bijective_of_finite
  obtain ⟨-, -, -, hundone⟩ := lossless_iff_one_to_one fixed
  obtain ⟨-, hundoes, hagain, hones⟩ := hundone hfixed
  obtain ⟨-, -, hlossless, -⟩ := lossless_iff_one_to_one ⟨Vector.replicate 64 0⟩
  have hlost : ¬ Function.Bijective (place ⟨Vector.replicate 64 0⟩) := by
    intro h
    have hsame : (0 : Fin 64) = 1 := h.injective (by decide)
    exact absurd hsame (by decide)
  exact ⟨hfixed, hundoes _, hagain, hones _, fun h => hlost (hlossless.mp h)⟩

end IdMint.BitTable
