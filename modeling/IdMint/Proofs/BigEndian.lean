import IdMint.Proofs.Numeral
import IdMint.Text.BigEndian

/-!
# Words as bytes

A number written to a fixed width loses what lies above it and nothing else, and texts
of one length differ in the number that they denote. The four bytes of a 32-bit word
are its number in base 256, which is also their bits one after the other.
-/

namespace IdMint.BigEndian

theorem length_ofNat (width n : Nat) : (ofNat width n).length = width := by
  induction width generalizing n with
  | zero => rfl
  | succ width ih => rw [ofNat, List.length_append, ih, List.length_singleton]

theorem toNat_ofNat (width n : Nat) : toNat (ofNat width n) = n % 256 ^ width := by
  induction width generalizing n with
  | zero => exact (Nat.mod_one n).symm
  | succ width ih =>
      have hlast : Numeral.value 256 (List.map UInt8.toNat [n.toUInt8]) = n % 256 := by
        simp [Numeral.value]
      rw [ofNat, toNat, List.map_append, Numeral.value_append, hlast, ← toNat, ih, Nat.pow_succ',
        Nat.mod_mul, List.length_map, List.length_singleton]
      ring

theorem toNat_eq_ofDigits (bytes : Bytes) :
    toNat bytes = Nat.ofDigits 256 (bytes.map UInt8.toNat).reverse :=
  Numeral.value_eq_ofDigits ..

theorem eq_of_toNat_eq {a b : Bytes} (hlength : a.length = b.length) (h : toNat a = toNat b) :
    a = b := by
  have hdigit : ∀ text : Bytes, ∀ d ∈ (text.map UInt8.toNat).reverse, d < 256 := by
    intro text d hd
    obtain ⟨byte, -, rfl⟩ := List.mem_map.mp (List.mem_reverse.mp hd)
    exact byte.toNat_lt
  rw [toNat_eq_ofDigits, toNat_eq_ofDigits] at h
  have hdigits := Nat.ofDigits_inj_of_len_eq (by decide) (by simpa using hlength)
    (hdigit a) (hdigit b) h
  exact List.map_injective_iff.mpr (fun _ _ => UInt8.toNat_inj.mp) (List.reverse_inj.mp hdigits)

/-! ## Words of four bytes -/

section

variable (b₀ b₁ b₂ b₃ : UInt8)

theorem toNat_toUInt32 :
    (toUInt32 [b₀, b₁, b₂, b₃]).toNat =
      b₀.toNat * 2 ^ 24 + b₁.toNat * 2 ^ 16 + b₂.toNat * 2 ^ 8 + b₃.toNat := by
  have h₀ := b₀.toNat_lt
  have h₁ := b₁.toNat_lt
  have h₂ := b₂.toNat_lt
  have h₃ := b₃.toNat_lt
  have hvalue : toNat [b₀, b₁, b₂, b₃] =
      b₀.toNat * 2 ^ 24 + b₁.toNat * 2 ^ 16 + b₂.toNat * 2 ^ 8 + b₃.toNat := by
    simp only [toNat, Numeral.value, List.map_cons, List.map_nil, List.foldl_cons, List.foldl_nil]
    omega
  rw [toUInt32, UInt32.toNat_ofNat', hvalue]
  omega

theorem toNat_append_byte {n : Nat} (x : BitVec n) (y : BitVec 8) :
    (x ++ y).toNat = x.toNat * 2 ^ 8 + y.toNat := by
  rw [BitVec.toNat_append, ← Nat.shiftLeft_add_eq_or_of_lt y.isLt, Nat.shiftLeft_eq]

theorem toBitVec_toUInt32 :
    (toUInt32 [b₀, b₁, b₂, b₃]).toBitVec =
      b₀.toBitVec ++ b₁.toBitVec ++ b₂.toBitVec ++ b₃.toBitVec := by
  apply BitVec.eq_of_toNat_eq
  rw [UInt32.toNat_toBitVec, toNat_toUInt32, toNat_append_byte, toNat_append_byte,
    toNat_append_byte]
  simp only [UInt8.toNat_toBitVec]
  omega

end

end IdMint.BigEndian
