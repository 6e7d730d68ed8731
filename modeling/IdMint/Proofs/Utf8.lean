import IdMint.Text.Utf8
import Mathlib.Data.List.Basic

/-!
# What is UTF-8

The definition goes over the bytes one by one and never sees a character. `isText_iff`
says that it comes to the same as encoding characters one after the other.

Whatever a character owes lies beyond ASCII. So an ASCII byte is a character by itself
wherever it stands, and it may be replaced by other ASCII text without making a text UTF-8
that was not, or the other way round. Changing case is of this kind, and so is escaping.
-/

namespace IdMint.Utf8

/-! ## Characters -/

/-- The bytes of a character, by how many there are. -/
inductive IsCharacter : Bytes → Prop
  | one {a : UInt8} (ha : a.toNat ≤ 0x7f) : IsCharacter [a]
  | two {a b : UInt8} (ha : 0xc2 ≤ a.toNat ∧ a.toNat ≤ 0xdf)
      (hb : 0x80 ≤ b.toNat ∧ b.toNat ≤ 0xbf) : IsCharacter [a, b]
  | three {a b c : UInt8} (ha : 0xe0 ≤ a.toNat ∧ a.toNat ≤ 0xef)
      (hb : 0x80 ≤ b.toNat ∧ b.toNat ≤ 0xbf) (hc : 0x80 ≤ c.toNat ∧ c.toNat ≤ 0xbf)
      (hshort : a.toNat = 0xe0 → 0xa0 ≤ b.toNat)
      (hsurrogate : a.toNat = 0xed → b.toNat ≤ 0x9f) : IsCharacter [a, b, c]
  | four {a b c d : UInt8} (ha : 0xf0 ≤ a.toNat ∧ a.toNat ≤ 0xf4)
      (hb : 0x80 ≤ b.toNat ∧ b.toNat ≤ 0xbf) (hc : 0x80 ≤ c.toNat ∧ c.toNat ≤ 0xbf)
      (hd : 0x80 ≤ d.toNat ∧ d.toNat ≤ 0xbf) (hshort : a.toNat = 0xf0 → 0x90 ≤ b.toNat)
      (hlast : a.toNat = 0xf4 → b.toNat ≤ 0x8f) : IsCharacter [a, b, c, d]

theorem isCharacter_utf8EncodeChar (c : Char) : IsCharacter (String.utf8EncodeChar c) := by
  have hvalid : c.val.toNat < 0xd800 ∨ 0xdfff < c.val.toNat ∧ c.val.toNat < 0x110000 := c.valid
  rw [String.utf8EncodeChar]
  generalize c.val.toNat = v at hvalid
  by_cases h1 : v ≤ 0x7f
  · rw [if_pos h1]
    refine .one ?_
    rw [UInt8.toNat_ofNat']
    omega
  rw [if_neg h1]
  by_cases h2 : v ≤ 0x7ff
  · rw [if_pos h2]
    refine .two ?_ ?_ <;> simp only [UInt8.toNat_ofNat'] <;> omega
  rw [if_neg h2]
  by_cases h3 : v ≤ 0xffff
  · rw [if_pos h3]
    refine .three ?_ ?_ ?_ ?_ ?_ <;> simp only [UInt8.toNat_ofNat'] <;> omega
  · rw [if_neg h3]
    refine .four ?_ ?_ ?_ ?_ ?_ ?_ <;> simp only [UInt8.toNat_ofNat'] <;> omega

theorem ofNat_eq {n : Nat} {b : UInt8} (h : n = b.toNat) : UInt8.ofNat n = b := by
  rw [h, UInt8.ofNat_toNat]

/-- The character of a code point. -/
theorem exists_char {v : Nat} (h : v < 0xd800 ∨ 0xdfff < v ∧ v < 0x110000) :
    ∃ c : Char, c.val.toNat = v :=
  ⟨⟨UInt32.ofNatLT v (by grind), h⟩, rfl⟩

theorem IsCharacter.exists_utf8EncodeChar {text : Bytes} (h : IsCharacter text) :
    ∃ c : Char, String.utf8EncodeChar c = text := by
  cases h with
  | @one a ha =>
      obtain ⟨c, hc⟩ := exists_char (v := a.toNat) (by omega)
      refine ⟨c, ?_⟩
      rw [String.utf8EncodeChar, hc, if_pos ha, ofNat_eq rfl]
  | @two a b ha hb =>
      obtain ⟨c, hc⟩ := exists_char (v := (a.toNat - 0xc0) * 64 + (b.toNat - 0x80)) (by omega)
      refine ⟨c, ?_⟩
      rw [String.utf8EncodeChar, hc, if_neg (by omega), if_pos (by omega), ofNat_eq (b := a),
        ofNat_eq (b := b)]
      · omega
      · omega
  | @three a b c ha hb hc hshort hsurrogate =>
      obtain ⟨x, hx⟩ := exists_char
        (v := (a.toNat - 0xe0) * 4096 + (b.toNat - 0x80) * 64 + (c.toNat - 0x80)) (by omega)
      refine ⟨x, ?_⟩
      rw [String.utf8EncodeChar, hx, if_neg (by omega), if_neg (by omega), if_pos (by omega),
        ofNat_eq (b := a), ofNat_eq (b := b), ofNat_eq (b := c)]
      · omega
      · omega
      · omega
  | @four a b c d ha hb hc hd hshort hlast =>
      obtain ⟨x, hx⟩ := exists_char
        (v := (a.toNat - 0xf0) * 262144 + (b.toNat - 0x80) * 4096 + (c.toNat - 0x80) * 64
          + (d.toNat - 0x80)) (by omega)
      refine ⟨x, ?_⟩
      rw [String.utf8EncodeChar, hx, if_neg (by omega), if_neg (by omega), if_neg (by omega),
        ofNat_eq (b := a), ofNat_eq (b := b), ofNat_eq (b := c), ofNat_eq (b := d)]
      · omega
      · omega
      · omega
      · omega

/-! ## What the first byte demands -/

theorem following?_eq (a : UInt8) :
    following? a =
      if a.toNat ≤ 0x7f then some []
      else if a.toNat < 0xc2 then none
      else if a.toNat ≤ 0xdf then some [continuation]
      else if a.toNat = 0xe0 then some [(0xa0, 0xbf), continuation]
      else if a.toNat = 0xed then some [(0x80, 0x9f), continuation]
      else if a.toNat ≤ 0xef then some [continuation, continuation]
      else if a.toNat = 0xf0 then some [(0x90, 0xbf), continuation, continuation]
      else if a.toNat ≤ 0xf3 then some [continuation, continuation, continuation]
      else if a.toNat = 0xf4 then some [(0x80, 0x8f), continuation, continuation]
      else none := by
  simp only [following?, UInt8.le_iff_toNat_le, UInt8.lt_iff_toNat_lt, ← UInt8.toNat_inj]
  rfl

/-- The byte is in the range, by the numbers. -/
def Within (range : UInt8 × UInt8) (b : UInt8) : Prop :=
  range.1.toNat ≤ b.toNat ∧ b.toNat ≤ range.2.toNat

theorem following?_of_ascii {a : UInt8} (ha : a.toNat ≤ 0x7f) : following? a = some [] := by
  rw [following?_eq, if_pos ha]

theorem following?_of_two {a : UInt8} (ha : 0xc2 ≤ a.toNat ∧ a.toNat ≤ 0xdf) :
    following? a = some [continuation] := by
  rw [following?_eq, if_neg (by omega), if_neg (by omega), if_pos ha.2]

theorem following?_of_three {a : UInt8} (ha : 0xe0 ≤ a.toNat ∧ a.toNat ≤ 0xef) :
    ∃ range, following? a = some [range, continuation] ∧
      ∀ b, Within range b ↔ (0x80 ≤ b.toNat ∧ b.toNat ≤ 0xbf) ∧
        (a.toNat = 0xe0 → 0xa0 ≤ b.toNat) ∧ (a.toNat = 0xed → b.toNat ≤ 0x9f) := by
  rw [following?_eq, if_neg (by omega), if_neg (by omega), if_neg (by omega)]
  by_cases hshort : a.toNat = 0xe0
  · refine ⟨(0xa0, 0xbf), if_pos hshort, fun b => ?_⟩
    simp only [Within, UInt8.reduceToNat]
    omega
  rw [if_neg hshort]
  by_cases hsurrogate : a.toNat = 0xed
  · refine ⟨(0x80, 0x9f), if_pos hsurrogate, fun b => ?_⟩
    simp only [Within, UInt8.reduceToNat]
    omega
  · rw [if_neg hsurrogate, if_pos ha.2]
    refine ⟨continuation, rfl, fun b => ?_⟩
    simp only [Within, continuation, UInt8.reduceToNat]
    omega

theorem following?_of_four {a : UInt8} (ha : 0xf0 ≤ a.toNat ∧ a.toNat ≤ 0xf4) :
    ∃ range, following? a = some [range, continuation, continuation] ∧
      ∀ b, Within range b ↔ (0x80 ≤ b.toNat ∧ b.toNat ≤ 0xbf) ∧
        (a.toNat = 0xf0 → 0x90 ≤ b.toNat) ∧ (a.toNat = 0xf4 → b.toNat ≤ 0x8f) := by
  rw [following?_eq, if_neg (by omega), if_neg (by omega), if_neg (by omega),
    if_neg (by omega), if_neg (by omega), if_neg (by omega)]
  by_cases hshort : a.toNat = 0xf0
  · refine ⟨(0x90, 0xbf), if_pos hshort, fun b => ?_⟩
    simp only [Within, UInt8.reduceToNat]
    omega
  rw [if_neg hshort]
  by_cases hlast : a.toNat ≤ 0xf3
  · refine ⟨continuation, if_pos hlast, fun b => ?_⟩
    simp only [Within, continuation, UInt8.reduceToNat]
    omega
  · rw [if_neg hlast, if_pos (by omega)]
    refine ⟨(0x80, 0x8f), rfl, fun b => ?_⟩
    simp only [Within, UInt8.reduceToNat]
    omega

/-- No other byte begins a character. -/
theorem range_of_following? {a : UInt8} {owed : List (UInt8 × UInt8)}
    (h : following? a = some owed) : a.toNat ≤ 0x7f ∨ 0xc2 ≤ a.toNat ∧ a.toNat ≤ 0xf4 := by
  rw [following?_eq] at h
  by_contra hrange
  rw [if_neg (by omega)] at h
  by_cases hlow : a.toNat < 0xc2
  · rw [if_pos hlow] at h
    cases h
  · rw [if_neg hlow, if_neg (by omega), if_neg (by omega), if_neg (by omega), if_neg (by omega),
      if_neg (by omega), if_neg (by omega), if_neg (by omega)] at h
    cases h

/-! ## Characters one after the other -/

theorem step_eq_some_iff {range : UInt8 × UInt8} {owed rest : List (UInt8 × UInt8)} {b : UInt8} :
    step (range :: owed) b = some rest ↔ Within range b ∧ rest = owed := by
  rw [step, Within, ← UInt8.le_iff_toNat_le, ← UInt8.le_iff_toNat_le]
  split
  · next h => exact ⟨fun heq => ⟨h, (Option.some.inj heq).symm⟩, fun h => by rw [h.2]⟩
  · next h => exact ⟨nofun, fun hboth => absurd hboth.1 h⟩

theorem foldlM_cons_of_step {owed next : List (UInt8 × UInt8)} {b : UInt8} (rest : Bytes)
    (h : step owed b = some next) : (b :: rest).foldlM step owed = rest.foldlM step next := by
  rw [List.foldlM_cons, h]
  rfl

theorem foldlM_cons_of_following? {owed : List (UInt8 × UInt8)} {a : UInt8} (rest : Bytes)
    (h : following? a = some owed) : (a :: rest).foldlM step [] = rest.foldlM step owed :=
  foldlM_cons_of_step rest h

theorem foldlM_cons_of_within {range : UInt8 × UInt8} {owed : List (UInt8 × UInt8)} {b : UInt8}
    (rest : Bytes) (h : Within range b) :
    (b :: rest).foldlM step (range :: owed) = rest.foldlM step owed :=
  foldlM_cons_of_step rest (step_eq_some_iff.mpr ⟨h, rfl⟩)

/-- After a character nothing is owed. -/
theorem IsCharacter.foldlM_append {text : Bytes} (h : IsCharacter text) (rest : Bytes) :
    (text ++ rest).foldlM step [] = rest.foldlM step [] := by
  cases h with
  | one ha => exact foldlM_cons_of_following? _ (following?_of_ascii ha)
  | @two a b ha hb =>
      have hb : Within continuation b := hb
      refine (foldlM_cons_of_following? _ (following?_of_two ha)).trans ?_
      exact foldlM_cons_of_within _ hb
  | @three a b c ha hb hc hshort hsurrogate =>
      have hc : Within continuation c := hc
      obtain ⟨range, hfollowing, hrange⟩ := following?_of_three ha
      refine (foldlM_cons_of_following? _ hfollowing).trans ?_
      refine (foldlM_cons_of_within _ ((hrange _).mpr ⟨hb, hshort, hsurrogate⟩)).trans ?_
      exact foldlM_cons_of_within _ hc
  | @four a b c d ha hb hc hd hshort hlast =>
      have hc : Within continuation c := hc
      have hd : Within continuation d := hd
      obtain ⟨range, hfollowing, hrange⟩ := following?_of_four ha
      refine (foldlM_cons_of_following? _ hfollowing).trans ?_
      refine (foldlM_cons_of_within _ ((hrange _).mpr ⟨hb, hshort, hlast⟩)).trans ?_
      refine (foldlM_cons_of_within _ hc).trans ?_
      exact foldlM_cons_of_within _ hd

/-- What is owed stands at the beginning of the text. -/
theorem exists_within_of_foldlM {range : UInt8 × UInt8} {owed : List (UInt8 × UInt8)}
    {text : Bytes} (h : text.foldlM step (range :: owed) = some []) :
    ∃ b rest, text = b :: rest ∧ Within range b ∧ rest.foldlM step owed = some [] := by
  cases text with
  | nil => cases h
  | cons b rest =>
      rw [List.foldlM_cons] at h
      obtain ⟨next, hstep, hrest⟩ := Option.bind_eq_some_iff.mp h
      obtain ⟨hwithin, rfl⟩ := step_eq_some_iff.mp hstep
      exact ⟨b, rest, rfl, hwithin, hrest⟩

/-- A text that is UTF-8 begins with a character, if it begins at all. -/
theorem IsText.exists_character {a : UInt8} {rest : Bytes} (h : IsText (a :: rest)) :
    ∃ first tail, a :: rest = first ++ tail ∧ IsCharacter first ∧ IsText tail := by
  rw [IsText, List.foldlM_cons] at h
  obtain ⟨owed, hfollowing, h⟩ := Option.bind_eq_some_iff.mp h
  change following? a = some owed at hfollowing
  have hbegins := range_of_following? hfollowing
  by_cases h1 : a.toNat ≤ 0x7f
  · rw [following?_of_ascii h1] at hfollowing
    cases hfollowing
    exact ⟨[a], rest, rfl, .one h1, h⟩
  by_cases h2 : a.toNat ≤ 0xdf
  · have ha : 0xc2 ≤ a.toNat ∧ a.toNat ≤ 0xdf := by omega
    rw [following?_of_two ha] at hfollowing
    cases hfollowing
    obtain ⟨b, tail, rfl, hb, htail⟩ := exists_within_of_foldlM h
    exact ⟨[a, b], tail, rfl, .two ha hb, htail⟩
  by_cases h3 : a.toNat ≤ 0xef
  · have ha : 0xe0 ≤ a.toNat ∧ a.toNat ≤ 0xef := by omega
    obtain ⟨range, hsome, hrange⟩ := following?_of_three ha
    rw [hsome] at hfollowing
    cases hfollowing
    obtain ⟨b, _, rfl, hb, h⟩ := exists_within_of_foldlM h
    obtain ⟨c, tail, rfl, hc, htail⟩ := exists_within_of_foldlM h
    obtain ⟨hb, hshort, hsurrogate⟩ := (hrange b).mp hb
    exact ⟨[a, b, c], tail, rfl, .three ha hb hc hshort hsurrogate, htail⟩
  · have ha : 0xf0 ≤ a.toNat ∧ a.toNat ≤ 0xf4 := by omega
    obtain ⟨range, hsome, hrange⟩ := following?_of_four ha
    rw [hsome] at hfollowing
    cases hfollowing
    obtain ⟨b, _, rfl, hb, h⟩ := exists_within_of_foldlM h
    obtain ⟨c, _, rfl, hc, h⟩ := exists_within_of_foldlM h
    obtain ⟨d, tail, rfl, hd, htail⟩ := exists_within_of_foldlM h
    obtain ⟨hb, hshort, hlast⟩ := (hrange b).mp hb
    exact ⟨[a, b, c, d], tail, rfl, .four ha hb hc hd hshort hlast, htail⟩

theorem IsCharacter.ne_nil {text : Bytes} (h : IsCharacter text) : text ≠ [] := by
  cases h <;> exact List.cons_ne_nil _ _

/-- A text is UTF-8 exactly if it is the encoding of characters. -/
theorem isText_iff {text : Bytes} :
    IsText text ↔ ∃ cs : List Char, text = cs.flatMap String.utf8EncodeChar := by
  constructor
  · intro h
    induction hlength : text.length using Nat.strongRecOn generalizing text with
    | ind n ih =>
      cases text with
      | nil => exact ⟨[], rfl⟩
      | cons a rest =>
        obtain ⟨first, tail, hsplit, hfirst, htail⟩ := h.exists_character
        have hshorter : tail.length < n := by
          have := List.length_pos_iff.mpr hfirst.ne_nil
          rw [← hlength, hsplit, List.length_append]
          omega
        obtain ⟨c, rfl⟩ := hfirst.exists_utf8EncodeChar
        obtain ⟨cs, rfl⟩ := ih _ hshorter htail rfl
        exact ⟨c :: cs, hsplit⟩
  · rintro ⟨cs, rfl⟩
    induction cs with
    | nil => rfl
    | cons c cs ih =>
      rw [List.flatMap_cons, IsText, (isCharacter_utf8EncodeChar c).foldlM_append]
      exact ih

/-! ## ASCII -/

theorem IsText.append {front back : Bytes} (hfront : IsText front) (hback : IsText back) :
    IsText (front ++ back) := by
  obtain ⟨cs, rfl⟩ := isText_iff.mp hfront
  obtain ⟨ds, rfl⟩ := isText_iff.mp hback
  rw [← List.flatMap_append]
  exact isText_iff.mpr ⟨cs ++ ds, rfl⟩

/-- All bytes of the text are ASCII. -/
def IsAscii (text : Bytes) : Prop := ∀ b ∈ text, b.toNat ≤ 0x7f

instance (text : Bytes) : Decidable (IsAscii text) := List.decidableBAll _ text

theorem IsAscii.append {front back : Bytes} (hfront : IsAscii front) (hback : IsAscii back) :
    IsAscii (front ++ back) := by
  intro b hb
  exact (List.mem_append.mp hb).elim (hfront b) (hback b)

theorem IsAscii.foldlM_append {text : Bytes} (h : IsAscii text) (rest : Bytes) :
    (text ++ rest).foldlM step [] = rest.foldlM step [] := by
  induction text with
  | nil => rfl
  | cons a text ih =>
      obtain ⟨ha, htext⟩ := List.forall_mem_cons.mp h
      exact (IsCharacter.foldlM_append (.one ha) _).trans (ih htext)

theorem IsAscii.isText {text : Bytes} (h : IsAscii text) : IsText text := by
  rw [IsText, ← List.append_nil text, h.foldlM_append]
  rfl

/-- All that is owed lies beyond ASCII. -/
def IsBeyond (owed : List (UInt8 × UInt8)) : Prop := ∀ range ∈ owed, 0x80 ≤ range.1

theorem isBeyond_of_following? {a : UInt8} {owed : List (UInt8 × UInt8)}
    (h : following? a = some owed) : IsBeyond owed := by
  by_cases hfour : a ≤ 0xef
  · grind [following?, IsBeyond, continuation]
  · grind [following?, IsBeyond, continuation]

theorem IsBeyond.of_step {owed next : List (UInt8 × UInt8)} {b : UInt8} (h : IsBeyond owed)
    (hstep : step owed b = some next) : IsBeyond next := by
  cases owed with
  | nil => exact isBeyond_of_following? hstep
  | cons range owed =>
      obtain ⟨_, rfl⟩ := step_eq_some_iff.mp hstep
      exact (List.forall_mem_cons.mp h).2

theorem IsBeyond.step_of_ascii {range : UInt8 × UInt8} {owed : List (UInt8 × UInt8)} {b : UInt8}
    (h : IsBeyond (range :: owed)) (hb : b.toNat ≤ 0x7f) : step (range :: owed) b = none := by
  rw [Option.eq_none_iff_forall_ne_some]
  intro next hstep
  obtain ⟨hwithin, _⟩ := step_eq_some_iff.mp hstep
  have hleast : 0x80 ≤ range.1.toNat := UInt8.le_iff_toNat_le.mp (h range (List.mem_cons_self ..))
  have := hwithin.1
  omega

/-- ASCII bytes may be replaced by other ASCII text, byte by byte. -/
theorem isText_flatMap_iff {f : UInt8 → Bytes}
    (hascii : ∀ b : UInt8, b.toNat ≤ 0x7f → f b ≠ [] ∧ IsAscii (f b))
    (hkeeps : ∀ b : UInt8, 0x7f < b.toNat → f b = [b]) {text : Bytes} :
    IsText (text.flatMap f) ↔ IsText text := by
  -- In front of an ASCII byte either nothing is owed, or both texts fail.
  suffices h : ∀ owed, IsBeyond owed →
      (text.flatMap f).foldlM step owed = text.foldlM step owed by
    rw [IsText, h [] (List.forall_mem_nil _)]
    rfl
  induction text with
  | nil => exact fun _ _ => rfl
  | cons b text ih =>
      intro owed howed
      rw [List.flatMap_cons]
      by_cases hb : b.toNat ≤ 0x7f
      · obtain ⟨hsome, hall⟩ := hascii b hb
        cases owed with
        | nil =>
            rw [hall.foldlM_append, foldlM_cons_of_following? _ (following?_of_ascii hb)]
            exact ih [] howed
        | cons range owed =>
            obtain ⟨a, more, hsplit⟩ := List.exists_cons_of_ne_nil hsome
            have ha : a.toNat ≤ 0x7f := hall a (hsplit ▸ List.mem_cons_self ..)
            rw [hsplit, List.cons_append, List.foldlM_cons, List.foldlM_cons,
              howed.step_of_ascii ha, howed.step_of_ascii hb]
            rfl
      · rw [hkeeps b (by omega), List.singleton_append, List.foldlM_cons, List.foldlM_cons]
        cases hstep : step owed b with
        | none => rfl
        | some next => exact ih next (howed.of_step hstep)

end IdMint.Utf8
