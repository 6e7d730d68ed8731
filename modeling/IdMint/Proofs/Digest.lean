import IdMint.Proofs.HexText
import IdMint.Proofs.Padding

/-!
# The digest is the standard's

Each stage is carried over by itself. The words agree function by function, so a round
does. The schedule is grown newest word first: at each length it lists the standard's
numbered words backwards, so the four fixed places hold the four words that the
recurrence names. A fold over a number of rounds or blocks then agrees with the standard's
sequence by induction on that number, one more of them being one more step at its end.
-/

namespace IdMint.Sha256

open Standard

/-! ## Words -/

theorem toBitVec_rotr {n : UInt32} (hn : 0 < n.toNat ∧ n.toNat < 32) (x : UInt32) :
    (rotr x n).toBitVec = x.toBitVec.rotateRight n.toNat := by
  obtain ⟨hpos, hlt⟩ := hn
  have hright : (n.toBitVec % 32).toNat = n.toNat := by
    rw [BitVec.toNat_umod]
    exact Nat.mod_eq_of_lt hlt
  have hleft : ((32 - n).toBitVec % 32).toNat = 32 - n.toNat := by
    have hle : n ≤ 32 := UInt32.le_iff_toNat_le.mpr (Nat.le_of_lt hlt)
    have hsub : (32 - n).toNat = 32 - n.toNat := UInt32.toNat_sub_of_le _ _ hle
    rw [BitVec.toNat_umod, UInt32.toNat_toBitVec, hsub]
    exact Nat.mod_eq_of_lt (show 32 - n.toNat < 32 by omega)
  rw [rotr, UInt32.toBitVec_or, UInt32.toBitVec_shiftRight, UInt32.toBitVec_shiftLeft,
    BitVec.ushiftRight_eq', BitVec.shiftLeft_eq', hright, hleft, BitVec.rotateRight_def,
    Nat.mod_eq_of_lt hlt]

/-- All four mixings are two rotations and a third term. -/
theorem toBitVec_two_rotr {l m : UInt32} (hl : 0 < l.toNat ∧ l.toNat < 32)
    (hm : 0 < m.toNat ∧ m.toNat < 32) (x third : UInt32) :
    (rotr x l ^^^ rotr x m ^^^ third).toBitVec =
      x.toBitVec.rotateRight l.toNat ^^^ x.toBitVec.rotateRight m.toNat ^^^ third.toBitVec := by
  rw [UInt32.toBitVec_xor, UInt32.toBitVec_xor, toBitVec_rotr hl, toBitVec_rotr hm]

theorem toBitVec_smallSigma0 (x : UInt32) :
    (smallSigma0 x).toBitVec = Standard.smallSigma0 x.toBitVec :=
  toBitVec_two_rotr (by decide) (by decide) x (x >>> 3)

theorem toBitVec_smallSigma1 (x : UInt32) :
    (smallSigma1 x).toBitVec = Standard.smallSigma1 x.toBitVec :=
  toBitVec_two_rotr (by decide) (by decide) x (x >>> 10)

theorem toBitVec_bigSigma0 (x : UInt32) :
    (bigSigma0 x).toBitVec = Standard.bigSigma0 x.toBitVec := by
  rw [bigSigma0, toBitVec_two_rotr (by decide) (by decide), toBitVec_rotr (by decide)]
  rfl

theorem toBitVec_bigSigma1 (x : UInt32) :
    (bigSigma1 x).toBitVec = Standard.bigSigma1 x.toBitVec := by
  rw [bigSigma1, toBitVec_two_rotr (by decide) (by decide), toBitVec_rotr (by decide)]
  rfl

/-! ## The schedule -/

/-- The first words of a sequence, the last of them in front. -/
def newestFirst (word : Nat → UInt32) (count : Nat) : List UInt32 :=
  ((List.range count).map word).reverse

theorem newestFirst_succ (word : Nat → UInt32) (count : Nat) :
    newestFirst word (count + 1) = word count :: newestFirst word count := by
  rw [newestFirst, List.range_succ, List.map_append, List.reverse_append]
  rfl

theorem getD_newestFirst {word : Nat → UInt32} {count j : Nat} (h : j < count) :
    (newestFirst word count).getD j 0 = word (count - 1 - j) := by
  have hlength : j < (newestFirst word count).length := by simpa [newestFirst] using h
  calc (newestFirst word count).getD j 0
      = (newestFirst word count)[j] := (List.getElem_eq_getD 0).symm
    _ = word (count - 1 - j) := by simp [newestFirst]

theorem extend_newestFirst {word : Nat → UInt32}
    (h : ∀ t, 16 ≤ t → nextWord (newestFirst word t) = word t) {count : Nat} (hcount : 16 ≤ count)
    (n : Nat) : extend n (newestFirst word count) = newestFirst word (count + n) := by
  induction n generalizing count with
  | zero => rfl
  | succ n ih =>
      rw [extend, h count hcount, ← newestFirst_succ, ih (by omega)]
      congr 1
      omega

theorem scheduleWord_of_lt {word : Nat → Word} {t : Nat} (h : t < 16) :
    scheduleWord word t = word t := by
  rw [scheduleWord, if_pos h]

theorem scheduleWord_of_le {word : Nat → Word} {t : Nat} (h : 16 ≤ t) :
    scheduleWord word t =
      Standard.smallSigma1 (scheduleWord word (t - 2)) + scheduleWord word (t - 7)
        + Standard.smallSigma0 (scheduleWord word (t - 15)) + scheduleWord word (t - 16) := by
  rw [scheduleWord, if_neg (Nat.not_lt.mpr h)]

theorem nextWord_scheduleWord (word : Nat → Word) {t : Nat} (h : 16 ≤ t) :
    nextWord (newestFirst (fun s => ⟨scheduleWord word s⟩) t) = ⟨scheduleWord word t⟩ := by
  rw [nextWord, getD_newestFirst (by omega), getD_newestFirst (by omega),
    getD_newestFirst (by omega), getD_newestFirst (by omega)]
  apply UInt32.toBitVec_inj.mp
  rw [UInt32.toBitVec_add, UInt32.toBitVec_add, UInt32.toBitVec_add, toBitVec_smallSigma0,
    toBitVec_smallSigma1]
  have h16 : t - 1 - 15 = t - 16 := by omega
  have h15 : t - 1 - 14 = t - 15 := by omega
  have h7 : t - 1 - 6 = t - 7 := by omega
  have h2 : t - 1 - 1 = t - 2 := by omega
  rw [h16, h15, h7, h2, scheduleWord_of_le h]
  ac_rfl

theorem schedule_eq (word : Nat → Word) :
    schedule ((List.range 16).map fun t => ⟨word t⟩) =
      (List.range 64).map fun t => ⟨scheduleWord word t⟩ := by
  have hfirst : ((List.range 16).map fun t => (⟨word t⟩ : UInt32)) =
      (List.range 16).map fun t => ⟨scheduleWord word t⟩ := by
    refine List.map_congr_left fun t ht => ?_
    rw [scheduleWord_of_lt (List.mem_range.mp ht)]
  rw [schedule, hfirst, ← newestFirst,
    extend_newestFirst (fun t => nextWord_scheduleWord word) (Nat.le_refl 16), newestFirst,
    List.reverse_reverse]

/-! ## Rounds -/

def Registers.toState (r : Registers) : State where
  a := r.a.toBitVec
  b := r.b.toBitVec
  c := r.c.toBitVec
  d := r.d.toBitVec
  e := r.e.toBitVec
  f := r.f.toBitVec
  g := r.g.toBitVec
  h := r.h.toBitVec

theorem toState_initial : Registers.initial.toState = State.initial := by
  rw [State.initial, primes_eq]
  decide +kernel

theorem roundConstants_eq : roundConstants = (List.range 64).map fun t => ⟨constant t⟩ := by
  simp only [constant, primes_eq]
  decide +kernel

theorem toState_add (r s : Registers) : (r + s).toState = r.toState + s.toState := rfl

theorem toState_round (r : Registers) (constant word : UInt32) :
    (round r constant word).toState = r.toState.round constant.toBitVec word.toBitVec := by
  have h1 := toBitVec_bigSigma1 r.e
  have h0 := toBitVec_bigSigma0 r.a
  simp only [round, Registers.toState, State.round, UInt32.toBitVec_add, h0, h1]
  rfl

theorem toState_rounds (r : Registers) (word : Nat → Word) (n : Nat) :
    (((List.range n).map fun t => ((⟨constant t⟩ : UInt32), (⟨word t⟩ : UInt32))).foldl
      (fun s kw => round s kw.1 kw.2) r).toState = working r.toState word n := by
  induction n with
  | zero => rfl
  | succ n ih =>
      rw [List.range_succ, List.map_append, List.foldl_append, List.map_singleton,
        List.foldl_cons, List.foldl_nil, toState_round, ih]
      rfl

theorem toState_compress (r : Registers) (word : Nat → Word) :
    (compress r ((List.range 16).map fun t => ⟨word t⟩)).toState =
      r.toState + working r.toState (scheduleWord word) 64 := by
  rw [compress, schedule_eq, roundConstants_eq, List.zip_map', toState_add, toState_rounds]

/-! ## Blocks -/

theorem groups_eq (size count : Nat) (bytes : Bytes) :
    groups size count bytes =
      (List.range count).map fun i => (bytes.drop (size * i)).take size := by
  induction count generalizing bytes with
  | zero => rfl
  | succ count ih =>
      rw [groups, ih, List.range_succ_eq_map, List.map_cons, List.map_map]
      congr 1
      refine List.map_congr_left fun i _ => ?_
      rw [List.drop_drop, Function.comp_apply, Nat.mul_succ, Nat.add_comm]

theorem take_drop_eq_map {bytes : Bytes} {start size : Nat} (h : start + size ≤ bytes.length) :
    (bytes.drop start).take size = (List.range size).map fun j => bytes.getD (start + j) 0 := by
  apply List.ext_getElem
  · rw [List.length_take, List.length_drop, List.length_map, List.length_range]
    omega
  · intro j hj hj'
    rw [List.length_map, List.length_range] at hj'
    rw [List.getElem_take, List.getElem_drop, List.getElem_map, List.getElem_range]
    exact List.getElem_eq_getD 0

theorem blockWords_eq {padded : Bytes} {i : Nat} (h : 64 * (i + 1) ≤ padded.length) :
    blockWords ((padded.drop (64 * i)).take 64) =
      (List.range 16).map fun t => ⟨blockWord padded i t⟩ := by
  rw [blockWords, groups_eq, List.map_map]
  refine List.map_congr_left fun t ht => ?_
  have ht := List.mem_range.mp ht
  apply UInt32.toBitVec_inj.mp
  rw [Function.comp_apply, List.drop_take, List.drop_drop, List.take_take,
    Nat.min_eq_left (by omega), take_drop_eq_map (by omega)]
  exact BigEndian.toBitVec_toUInt32 ..

theorem toState_blocks (padded : Bytes) {n : Nat} (h : 64 * n ≤ padded.length) :
    (((groups 64 n padded).map blockWords).foldl compress Registers.initial).toState =
      hashAfter padded n := by
  rw [groups_eq]
  induction n with
  | zero => exact toState_initial
  | succ n ih =>
      rw [List.range_succ, List.map_append, List.map_append, List.foldl_append,
        List.map_singleton, List.map_singleton, List.foldl_cons, List.foldl_nil,
        blockWords_eq h, toState_compress, ih (by omega)]
      rfl

/-! ## The digest -/

theorem toUInt8_eq_extract (w : UInt32) (place : Nat) :
    (w.toNat / 2 ^ place).toUInt8 = ⟨w.toBitVec.extractLsb' place 8⟩ := by
  apply UInt8.toNat_inj.mp
  show w.toNat / 2 ^ place % 256 = (w.toBitVec.extractLsb' place 8).toNat
  rw [BitVec.extractLsb'_toNat, Nat.shiftRight_eq_div_pow, UInt32.toNat_toBitVec]

theorem ofNat_four (w : UInt32) :
    BigEndian.ofNat 4 w.toNat = State.bytes.wordBytes w.toBitVec := by
  have h24 : w.toNat / 256 / 256 / 256 = w.toNat / 2 ^ 24 := by omega
  have h16 : w.toNat / 256 / 256 = w.toNat / 2 ^ 16 := by omega
  have h8 : w.toNat / 256 = w.toNat / 2 ^ 8 := rfl
  have h0 : w.toNat = w.toNat / 2 ^ 0 := (Nat.div_one _).symm
  calc BigEndian.ofNat 4 w.toNat
      = [(w.toNat / 256 / 256 / 256).toUInt8, (w.toNat / 256 / 256).toUInt8,
          (w.toNat / 256).toUInt8, w.toNat.toUInt8] := rfl
    _ = [(w.toNat / 2 ^ 24).toUInt8, (w.toNat / 2 ^ 16).toUInt8, (w.toNat / 2 ^ 8).toUInt8,
          (w.toNat / 2 ^ 0).toUInt8] := by rw [h24, h16, h8, ← h0]
    _ = State.bytes.wordBytes w.toBitVec := by
      rw [toUInt8_eq_extract, toUInt8_eq_extract, toUInt8_eq_extract, toUInt8_eq_extract]
      rfl

theorem digest_eq_hash (message : Bytes) : digest message = Standard.hash (pad message) := by
  have hfits : 64 * ((pad message).length / 64) ≤ (pad message).length := Nat.mul_div_le ..
  rw [Standard.hash, ← toState_blocks _ hfits, digest, blocks, Registers.toList]
  simp only [ofNat_four]
  rfl

theorem length_digest (message : Bytes) : (digest message).length = 32 := by
  rw [digest_eq_hash]
  rfl

/-- A message shorter than `2 ^ 61` bytes is padded in the one way that the standard wants, with
room for the length behind the byte `0x80`, and not to what any other message is padded to. Its
digest is the standard's hash of that, and the text of the digest is the one in lower case that
writes these thirty-two bytes and no others. -/
theorem digest_meets_standard {message : Bytes} (h : message.length < 2 ^ 61) :
    (∀ padded, Pads message padded ↔ padded = pad message) ∧
      (pad message).length = (message.length + 9 + 63) / 64 * 64 ∧
      message.length < (pad message).length - 8 ∧
      (∀ other, other.length < 2 ^ 61 → pad other = pad message → other = message) ∧
      digest message = Standard.hash (pad message) ∧
      (hexDigest message).length = 64 ∧
      (∀ text, text = hexDigest message ↔
        (∀ c ∈ text, c ∈ Hex.alphabet) ∧ Hex.Spells text (digest message)) ∧
      ∀ bytes, Hex.Spells (hexDigest message) bytes ↔ bytes = digest message := by
  have hpads := pads_pad h
  have hspells := Hex.spells_ofBytes (digest message)
  refine ⟨fun padded => ⟨fun hp => hp.unique hpads, fun hp => hp ▸ hpads⟩, length_pad message,
    ?room, ?distinct, digest_eq_hash message, ?width, fun text => Hex.eq_ofBytes_iff,
    fun bytes => ⟨fun hb => hb.unique hspells, fun hb => hb ▸ hspells⟩⟩
  case room =>
    rw [length_pad]
    omega
  case distinct =>
    intro other hother heq
    exact (pads_pad hother).message_unique (heq ▸ hpads)
  case width => rw [hexDigest, Hex.length_ofBytes, length_digest]

/-- Fifty-six bytes leave the length no room in their own block, so they take two. -/
theorem digest_meets_standard_of_two_blocks :
    (List.replicate 56 'a'.toUInt8).length < 2 ^ 61 ∧
      (pad (List.replicate 56 'a'.toUInt8)).length = 128 ∧
      Hex.Spells (ascii "b35439a4ac6f0948b6d6f9e3c6af0f5f590ce20f1bde7090ef7970686ec6738a")
        (Standard.hash (pad (List.replicate 56 'a'.toUInt8))) := by
  have h : (List.replicate 56 'a'.toUInt8).length < 2 ^ 61 := by decide
  obtain ⟨-, hlength, -, -, hhash, -, htext, -⟩ := digest_meets_standard h
  have hknown : ascii "b35439a4ac6f0948b6d6f9e3c6af0f5f590ce20f1bde7090ef7970686ec6738a" =
      hexDigest (List.replicate 56 'a'.toUInt8) := by decide +kernel
  exact ⟨h, hlength, hhash ▸ ((htext _).mp hknown).2⟩

end IdMint.Sha256
