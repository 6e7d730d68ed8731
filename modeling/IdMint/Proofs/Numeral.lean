import IdMint.Text.Numeral
import Mathlib.Data.List.Shortlex
import Mathlib.Data.Nat.Digits.Lemmas
import Mathlib.Tactic.Ring

/-!
# Numerals are read and written without loss

`value` and `digits` are the two directions of one notation, and this file says
so for every base: the digits of a number denote it, are digits, and are no more
than the number needs. The other way round only the zeros in front are lost, which a
number has no place for.

Of two numerals of one length the earlier in the dictionary is the smaller
number. So is the smaller text, as long as the alphabet lists its characters in
their order as bytes; a text of fixed width can therefore be compared by
comparing numbers, and is from here on. Where the width is not fixed the shorter
numeral is the smaller number, since none has a zero in front.
-/

namespace IdMint.Numeral

/-! ## Reading -/

theorem foldl_value (base : Nat) (ds : List Nat) :
    ∀ n, ds.foldl (fun n d => n * base + d) n = n * base ^ ds.length + value base ds := by
  induction ds with
  | nil =>
      intro n
      simp [value]
  | cons d ds ih =>
      intro n
      rw [value, List.foldl_cons, List.foldl_cons, ih, ih (0 * base + d), List.length_cons]
      ring

theorem value_cons (base d : Nat) (ds : List Nat) :
    value base (d :: ds) = d * base ^ ds.length + value base ds := by
  rw [value, List.foldl_cons, foldl_value]
  simp

theorem value_append (base : Nat) (ds es : List Nat) :
    value base (ds ++ es) = value base ds * base ^ es.length + value base es := by
  rw [value, List.foldl_append, foldl_value]
  rfl

theorem value_replicate_zero (base count : Nat) : value base (List.replicate count 0) = 0 := by
  induction count with
  | zero => rfl
  | succ count ih => rw [List.replicate_succ, value_cons, ih]; simp

theorem value_lt {base : Nat} {ds : List Nat} (h : ∀ d ∈ ds, d < base) :
    value base ds < base ^ ds.length := by
  induction ds with
  | nil => simp [value]
  | cons d ds ih =>
      have hd := h d (List.mem_cons_self ..)
      have hrest := ih fun e he => h e (List.mem_cons_of_mem _ he)
      rw [value_cons, List.length_cons, Nat.pow_succ']
      calc d * base ^ ds.length + value base ds
          < d * base ^ ds.length + base ^ ds.length := Nat.add_lt_add_left hrest _
        _ = (d + 1) * base ^ ds.length := by ring
        _ ≤ base * base ^ ds.length := Nat.mul_le_mul_right _ hd

/-! ## Writing -/

theorem value_go (base : Nat) :
    ∀ {rounds n : Nat} (below : List Nat), 2 ≤ base → n ≤ rounds →
      value base (digits.go base rounds n below)
        = n * base ^ below.length + value base below := by
  intro rounds
  induction rounds with
  | zero =>
      intro n below _ hn
      obtain rfl : n = 0 := by omega
      simp [digits.go]
  | succ rounds ih =>
      intro n below hbase hn
      rw [digits.go]
      split
      · next hz => simp [hz]
      · next hz =>
          have hdiv : n / base < n := Nat.div_lt_self (by omega) (by omega)
          rw [ih (n % base :: below) hbase (by omega), value_cons, List.length_cons]
          have hsplit := Nat.div_add_mod n base
          calc n / base * base ^ (below.length + 1)
                + (n % base * base ^ below.length + value base below)
              = (base * (n / base) + n % base) * base ^ below.length + value base below := by ring
            _ = n * base ^ below.length + value base below := by rw [hsplit]

theorem value_digits {base : Nat} (hbase : 2 ≤ base) (n : Nat) :
    value base (digits base n) = n := by
  rw [digits, value_go base [] hbase (Nat.le_refl n)]
  simp [value]

theorem go_digit_lt {base : Nat} (hbase : 0 < base) :
    ∀ {rounds n : Nat} {below : List Nat}, (∀ d ∈ below, d < base) →
      ∀ d ∈ digits.go base rounds n below, d < base := by
  intro rounds
  induction rounds with
  | zero => intro n below h; exact h
  | succ rounds ih =>
      intro n below h
      rw [digits.go]
      split
      · exact h
      · apply ih
        intro d hd
        rcases List.mem_cons.mp hd with rfl | hd
        · exact Nat.mod_lt _ hbase
        · exact h d hd

theorem digits_lt {base : Nat} (hbase : 0 < base) (n : Nat) : ∀ d ∈ digits base n, d < base :=
  go_digit_lt hbase (by simp)

theorem length_go_le {base : Nat} :
    ∀ {rounds width n : Nat} (below : List Nat), n < base ^ width →
      (digits.go base rounds n below).length ≤ width + below.length := by
  intro rounds
  induction rounds with
  | zero => intro width n below _; rw [digits.go]; omega
  | succ rounds ih =>
      intro width n below h
      rw [digits.go]
      split
      · omega
      · next hz =>
          cases width with
          | zero => simp only [Nat.pow_zero] at h; omega
          | succ width =>
              have hdiv : n / base < base ^ width := by
                apply Nat.div_lt_of_lt_mul
                rwa [← Nat.pow_succ']
              have hlen := ih (n % base :: below) hdiv
              rw [List.length_cons] at hlen
              omega

theorem length_digits_le {base width n : Nat} (h : n < base ^ width) :
    (digits base n).length ≤ width := length_go_le [] h

theorem lt_pow_length_digits {base : Nat} (hbase : 2 ≤ base) (n : Nat) :
    n < base ^ (digits base n).length := by
  have hlt := value_lt (digits_lt (by omega : 0 < base) n)
  rwa [value_digits hbase] at hlt

/-- A smaller number has no more digits. -/
theorem length_digits_mono {base m n : Nat} (hbase : 2 ≤ base) (h : m ≤ n) :
    (digits base m).length ≤ (digits base n).length :=
  length_digits_le (Nat.lt_of_le_of_lt h (lt_pow_length_digits hbase n))

/-! ## Leading zeros

Least significant first, value and digits are Mathlib's `Nat.ofDigits` and `Nat.digits`,
and that a numeral without a zero in front is that of its number is known there. -/

theorem value_eq_ofDigits (base : Nat) (ds : List Nat) :
    value base ds = Nat.ofDigits base ds.reverse := by
  rw [value, Nat.ofDigits_eq_foldr, List.foldr_reverse]
  simp only [Nat.cast_id, Nat.mul_comm base, Nat.add_comm]

theorem go_eq_reverse_append {base : Nat} (hbase : 2 ≤ base) :
    ∀ {rounds n : Nat} (below : List Nat), n ≤ rounds →
      digits.go base rounds n below = (Nat.digits base n).reverse ++ below := by
  intro rounds
  induction rounds with
  | zero =>
      intro n below hn
      obtain rfl : n = 0 := by omega
      simp [digits.go]
  | succ rounds ih =>
      intro n below hn
      rw [digits.go]
      split
      · next hz => simp [hz]
      · next hz =>
          have hdiv : n / base < n := Nat.div_lt_self (by omega) (by omega)
          rw [ih _ (by omega), Nat.digits_def' hbase (by omega : 0 < n), List.reverse_cons,
            List.append_assoc]
          rfl

theorem digits_eq_reverse {base : Nat} (hbase : 2 ≤ base) (n : Nat) :
    digits base n = (Nat.digits base n).reverse := by
  rw [digits, go_eq_reverse_append hbase [] (Nat.le_refl n), List.append_nil]

theorem value_dropWhile_zero (base : Nat) (ds : List Nat) :
    value base (ds.dropWhile (· == 0)) = value base ds := by
  induction ds with
  | nil => rfl
  | cons d ds ih =>
      rw [List.dropWhile_cons]
      split
      · next hd => rw [ih, value_cons, eq_of_beq hd, Nat.zero_mul, Nat.zero_add]
      · rfl

/-- Read and written again, a numeral has lost the zeros in front and nothing else. -/
theorem digits_value {base : Nat} (hbase : 2 ≤ base) {ds : List Nat} (h : ∀ d ∈ ds, d < base) :
    digits base (value base ds) = ds.dropWhile (· == 0) := by
  let kept := ds.dropWhile (· == 0)
  have hlt : ∀ d ∈ kept.reverse, d < base := fun d hd =>
    h d ((List.dropWhile_sublist _).subset (List.mem_reverse.mp hd))
  have hlast : ∀ hne : kept.reverse ≠ [], kept.reverse.getLast hne ≠ 0 := by
    intro hne
    rw [List.getLast_reverse]
    have hfirst := List.head_dropWhile_not (· == 0) (List.reverse_ne_nil_iff.mp hne)
    exact ne_of_beq_false hfirst
  rw [← value_dropWhile_zero, value_eq_ofDigits, digits_eq_reverse hbase,
    Nat.digits_ofDigits base hbase _ hlt hlast, List.reverse_reverse]

/-! ## Fixed width -/

/-- The digits of a number filled up to a width, leading zeros being digits too. -/
def fixed (base width n : Nat) : List Nat := (digits base n).leftpad width 0

theorem length_fixed {base width n : Nat} (h : n < base ^ width) :
    (fixed base width n).length = width := by
  rw [fixed, List.length_leftpad]
  exact Nat.max_eq_left (length_digits_le h)

theorem value_fixed {base : Nat} (hbase : 2 ≤ base) (width n : Nat) :
    value base (fixed base width n) = n := by
  rw [fixed, List.leftpad, value_append, value_replicate_zero, value_digits hbase]
  simp

theorem fixed_lt {base : Nat} (hbase : 0 < base) (width n : Nat) :
    ∀ d ∈ fixed base width n, d < base := by
  intro d hd
  rw [fixed, List.leftpad] at hd
  rcases List.mem_append.mp hd with hd | hd
  · rw [List.eq_of_mem_replicate hd]
    exact hbase
  · exact digits_lt hbase n d hd

/-! ## The dictionary -/

/-- The first digit decides, and the rest only if it is the same: the rest stays
below one unit of the first. -/
theorem mul_add_lt_mul_add_iff {unit x y : Nat} (hx : x < unit) (hy : y < unit) (c d : Nat) :
    c * unit + x < d * unit + y ↔ c < d ∨ (c = d ∧ x < y) := by
  have hstep : ∀ {a b : Nat}, a < b → a * unit + unit ≤ b * unit := by
    intro a b hab
    rw [← Nat.succ_mul]
    exact Nat.mul_le_mul_right _ hab
  rcases Nat.lt_trichotomy c d with h | rfl | h
  · have := hstep h
    omega
  · omega
  · have := hstep h
    omega

/-- Words of one length, in whatever alphabet, are in the order of the numbers that they
denote. -/
theorem lex_map_iff {α : Type} {base : Nat} {r : α → α → Prop} {character : Nat → α}
    (hmono : ∀ c d, c < base → d < base → (r (character c) (character d) ↔ c < d)) :
    ∀ {ds es : List Nat}, (∀ d ∈ ds, d < base) → (∀ e ∈ es, e < base) →
      ds.length = es.length →
      (List.Lex r (ds.map character) (es.map character) ↔ value base ds < value base es) := by
  intro ds
  induction ds with
  | nil =>
      intro es _ _ hlen
      rw [List.eq_nil_of_length_eq_zero hlen.symm]
      simp
  | cons d ds ih =>
      intro es hds hes hlen
      cases es with
      | nil => cases hlen
      | cons e es =>
          have hlen' : ds.length = es.length := Nat.succ.inj hlen
          have hd := hds d (List.mem_cons_self ..)
          have he := hes e (List.mem_cons_self ..)
          have hds' : ∀ x ∈ ds, x < base := fun x hx => hds x (List.mem_cons_of_mem _ hx)
          have hes' : ∀ x ∈ es, x < base := fun x hx => hes x (List.mem_cons_of_mem _ hx)
          have hvd := value_lt hds'
          have hve := value_lt hes'
          rw [hlen'] at hvd
          have hsame : character d = character e ↔ d = e := by
            constructor
            · intro h
              have hde := hmono d e hd he
              have hed := hmono e d he hd
              have hirr : ¬ r (character e) (character e) := by
                rw [hmono e e he he]
                exact Nat.lt_irrefl e
              rw [h] at hde hed
              exact Nat.le_antisymm (Nat.not_lt.mp (mt hed.mpr hirr))
                (Nat.not_lt.mp (mt hde.mpr hirr))
            · rintro rfl
              rfl
          rw [List.map_cons, List.map_cons, List.cons_lex_cons_iff, ih hds' hes' hlen', value_cons,
            value_cons, hlen', mul_add_lt_mul_add_iff hvd hve, hmono d e hd he, hsame]

/-- Texts of one length are in the order of the numbers that they denote. -/
theorem map_lt_map_iff {base : Nat} {character : Nat → UInt8}
    (hmono : ∀ c d, c < base → d < base → (character c < character d ↔ c < d))
    {ds es : List Nat} (hds : ∀ d ∈ ds, d < base) (hes : ∀ e ∈ es, e < base)
    (hlen : ds.length = es.length) :
    ds.map character < es.map character ↔ value base ds < value base es :=
  lex_map_iff hmono hds hes hlen

/-- The shorter numeral is the smaller number, and of two numerals of one length the one
that is first in the dictionary. -/
theorem shortlex_map_digits_iff {α : Type} {base : Nat} {r : α → α → Prop}
    {character : Nat → α} (hbase : 2 ≤ base)
    (hmono : ∀ c d, c < base → d < base → (r (character c) (character d) ↔ c < d))
    (m n : Nat) :
    List.Shortlex r ((digits base m).map character) ((digits base n).map character) ↔ m < n := by
  have hm := digits_lt (by omega : 0 < base) m
  have hn := digits_lt (by omega : 0 < base) n
  rw [List.shortlex_def, List.length_map, List.length_map]
  by_cases hlen : (digits base m).length = (digits base n).length
  · rw [lex_map_iff hmono hm hn hlen, value_digits hbase, value_digits hbase]
    omega
  · rcases Nat.lt_or_ge m n with h | h
    · have hfewer := length_digits_mono hbase (Nat.le_of_lt h)
      omega
    · have hfewer := length_digits_mono hbase h
      omega

/-! ## Reading within a limit -/

theorem foldlM_boundedValue {base limit : Nat} (hbase : 0 < base) :
    ∀ {ds : List Nat} {n : Nat}, (∀ d ∈ ds, d ≤ limit) → n ≤ limit →
      ds.foldlM (fun n d => if (limit - d) / base < n then none else some (n * base + d)) n
        = if n * base ^ ds.length + value base ds ≤ limit
          then some (n * base ^ ds.length + value base ds) else none := by
  intro ds
  induction ds with
  | nil =>
      intro n _ hn
      simp [value, hn]
  | cons d ds ih =>
      intro n hds hn
      have hd := hds d (List.mem_cons_self ..)
      have hds' : ∀ x ∈ ds, x ≤ limit := fun x hx => hds x (List.mem_cons_of_mem _ hx)
      have hfits : (limit - d) / base < n ↔ limit < n * base + d := by
        rw [Nat.div_lt_iff_lt_mul hbase]
        omega
      have hpow : 0 < base ^ ds.length := Nat.pow_pos hbase
      have hvalue : n * base ^ (ds.length + 1) + (d * base ^ ds.length + value base ds)
          = (n * base + d) * base ^ ds.length + value base ds := by ring
      rw [List.foldlM_cons, List.length_cons, value_cons, hvalue]
      by_cases h : limit < n * base + d
      · have hgrow : n * base + d ≤ (n * base + d) * base ^ ds.length :=
          Nat.le_mul_of_pos_right _ hpow
        rw [if_pos (hfits.mpr h), if_neg (by omega)]
        rfl
      · rw [if_neg (mt hfits.mp h)]
        exact ih hds' (by omega)

/-- The test at every digit refuses a numeral exactly if its value is above the
limit. -/
theorem boundedValue?_eq {base limit : Nat} (hbase : 0 < base) {ds : List Nat}
    (hds : ∀ d ∈ ds, d ≤ limit) :
    boundedValue? base limit ds
      = if value base ds ≤ limit then some (value base ds) else none := by
  rw [boundedValue?, foldlM_boundedValue hbase hds (Nat.zero_le _)]
  simp

/-- Characters that are read back as the digits they were written for give back the
whole list. -/
theorem mapM_map_eq_some {base : Nat} {read : UInt8 → Option Nat} {write : Nat → UInt8}
    (h : ∀ d, d < base → read (write d) = some d) :
    ∀ {ds : List Nat}, (∀ d ∈ ds, d < base) → (ds.map write).mapM read = some ds := by
  intro ds
  induction ds with
  | nil => intro _; rfl
  | cons d ds ih =>
      intro hds
      rw [List.map_cons, List.mapM_cons, h d (hds d (List.mem_cons_self ..)),
        ih fun e he => hds e (List.mem_cons_of_mem _ he)]
      rfl

/-- Where a digit has one character only, a text that is read was written for its digits. -/
theorem eq_map_of_mapM {base : Nat} {read : UInt8 → Option Nat} {write : Nat → UInt8}
    (h : ∀ b d, read b = some d → d < base ∧ b = write d) :
    ∀ {text : List UInt8} {ds : List Nat}, text.mapM read = some ds →
      text = ds.map write ∧ ∀ d ∈ ds, d < base := by
  intro text
  induction text with
  | nil =>
      intro ds hread
      cases hread
      exact ⟨rfl, by simp⟩
  | cons b text ih =>
      intro ds hread
      rw [List.mapM_cons] at hread
      obtain ⟨d, hd, hread⟩ := Option.bind_eq_some_iff.mp hread
      obtain ⟨rest, hrest, heq⟩ := Option.bind_eq_some_iff.mp hread
      cases heq
      obtain ⟨hlt, rfl⟩ := h b d hd
      obtain ⟨rfl, hltRest⟩ := ih hrest
      refine ⟨rfl, fun e he => ?_⟩
      rcases List.mem_cons.mp he with rfl | he
      · exact hlt
      · exact hltRest e he

end IdMint.Numeral
