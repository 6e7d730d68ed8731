import IdMint.Proofs.BigEndian
import IdMint.Proofs.HashStandard

/-!
# What a message is completed to

There is one way to pad a message, and it is the one in use: the fewest zeros are one
number, and eight bytes of one value are one text. Back from the padded message the last
eight bytes tell how long the message is, and then its beginning is the message. So no
two messages are padded to the same bytes.
-/

namespace IdMint.Sha256

open Standard

theorem zeroCount_isLeast (length : Nat) :
    IsLeast {count | 64 ∣ length + 1 + count + 8} (zeroCount length) := by
  constructor
  · rw [Set.mem_ofPred_eq, zeroCount]
    omega
  · intro count hcount
    rw [Set.mem_ofPred_eq] at hcount
    rw [zeroCount]
    omega

/-- The padded message ends with the block in which nine more bytes find room. -/
theorem length_pad (message : Bytes) :
    (pad message).length = (message.length + 9 + 63) / 64 * 64 := by
  have hfield := BigEndian.length_ofNat 8 (8 * message.length)
  rw [pad, List.length_append, List.length_append, List.length_cons, List.length_replicate, hfield,
    zeroCount]
  omega

theorem pads_pad {message : Bytes} (h : message.length < 2 ^ 61) : Pads message (pad message) := by
  refine ⟨zeroCount message.length, BigEndian.ofNat 8 (8 * message.length), ?_,
    BigEndian.length_ofNat .., ?_, zeroCount_isLeast _⟩
  · simp only [pad, List.append_assoc, List.cons_append, List.nil_append]
  · rw [← BigEndian.toNat_eq_ofDigits, BigEndian.toNat_ofNat]
    exact Nat.mod_eq_of_lt (by omega)

theorem Standard.Pads.unique {message p q : Bytes} (hp : Pads message p) (hq : Pads message q) :
    p = q := by
  obtain ⟨zeros, field, rfl, hlength, hfield, hzeros⟩ := hp
  obtain ⟨zeros', field', rfl, hlength', hfield', hzeros'⟩ := hq
  rw [← BigEndian.toNat_eq_ofDigits] at hfield hfield'
  rw [hzeros.unique hzeros',
    BigEndian.eq_of_toNat_eq (hlength.trans hlength'.symm) (hfield.trans hfield'.symm)]

/-- The padded message tells the message. -/
theorem Standard.Pads.message_unique {m m' padded : Bytes} (h : Pads m padded)
    (h' : Pads m' padded) : m = m' := by
  obtain ⟨zeros, field, rfl, hlength, hfield, -⟩ := h
  obtain ⟨zeros', field', heq, hlength', hfield', -⟩ := h'
  -- both fields are the last eight bytes
  obtain ⟨hfront, rfl⟩ := List.append_inj' heq (hlength.trans hlength'.symm)
  have hm : m.length = m'.length := by omega
  rw [List.append_assoc, List.append_assoc] at hfront
  exact (List.append_inj hfront hm).1

end IdMint.Sha256
