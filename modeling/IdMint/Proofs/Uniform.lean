import IdMint.Proofs.BigEndian
import IdMint.Proofs.Drawing
import Mathlib.Data.FinEnum
import Mathlib.Data.Int.CardIntervalMod
import Mathlib.Order.Bounds.Basic

/-!
# Numbers below a bound are drawn evenly

A source is asked for four bytes at a time. `Decides` says what a call makes of the
bytes it is given: it passes over those whose number is not below the limit, and the
first that are, or the first request that fails, decide. Calls made one after the other
take up where the one before has left the source, so what each of them was given
is a segment of what the source gave.

The limit is the greatest multiple of the bound that a word can be. Below it all
remainders are equally frequent, which is why the rest is passed over, and what is
passed over are fewer words than one more multiple would need.
-/

namespace IdMint

/-! ## Four bytes -/

/-- Four bytes, in the order in which they are delivered. -/
structure FourBytes where
  first : UInt8
  second : UInt8
  third : UInt8
  fourth : UInt8
  deriving DecidableEq, Repr

namespace FourBytes

def toList (b : FourBytes) : Bytes := [b.first, b.second, b.third, b.fourth]

/-- The number that the bytes denote, the first one counting most. -/
def number (b : FourBytes) : Nat :=
  b.first.toNat * 2 ^ 24 + b.second.toNat * 2 ^ 16 + b.third.toNat * 2 ^ 8 + b.fourth.toNat

/-- The bytes of a word. -/
def ofWord (word : UInt32) : FourBytes where
  first := UInt8.ofNat (word.toNat / 2 ^ 24)
  second := UInt8.ofNat (word.toNat / 2 ^ 16)
  third := UInt8.ofNat (word.toNat / 2 ^ 8)
  fourth := UInt8.ofNat word.toNat

theorem toNat_toUInt32 (b : FourBytes) : (BigEndian.toUInt32 b.toList).toNat = b.number :=
  BigEndian.toNat_toUInt32 ..

theorem toUInt32_ofWord (word : UInt32) : BigEndian.toUInt32 (ofWord word).toList = word := by
  have hword := word.toNat_lt
  apply UInt32.toNat_inj.mp
  rw [toNat_toUInt32, number, ofWord]
  simp only [UInt8.toNat_ofNat']
  omega

end FourBytes

/-! ## What a call makes of its fills -/

/-- What a source answers when it is asked for four bytes: `none` if it could not deliver. -/
abbrev Fill := Option FourBytes

namespace Fill

/-- The draw that a fill is taken for. -/
def draw (f : Fill) : Draw := f.map fun bytes => BigEndian.toUInt32 bytes.toList

/-- The fill ends a search: it failed, or its number is below the limit. -/
def Settles (bound : Nat) : Fill → Prop
  | none => True
  | some bytes => bytes.number < Draw.rejectionLimit bound

instance (bound : Nat) : DecidablePred (Settles bound)
  | none => .isTrue trivial
  | some bytes => inferInstanceAs (Decidable (bytes.number < Draw.rejectionLimit bound))

/-- The fills of a call and the readings of the clock that it takes lead to the number. -/
inductive Decides : Nat → List Fill → List Instant → Nat → Prop
  | nothing : Decides 0 [] [] 0
  | accepted {bound : Nat} {passed : List Fill} {bytes : FourBytes}
      (hpassed : ∀ f ∈ passed, ¬ f.Settles bound)
      (hbelow : bytes.number < Draw.rejectionLimit bound) :
      Decides bound (passed ++ [some bytes]) [] (bytes.number % bound)
  | failed {bound n : Nat} {passed : List Fill} {now : Instant} (hbound : 0 < bound)
      (hpassed : ∀ f ∈ passed, ¬ f.Settles bound) (hn : (n : Int) = now.nanos % bound) :
      Decides bound (passed ++ [none]) [now] n

/-- For the bound zero there is nothing to be decided. -/
theorem Decides.eq_nothing {bound n : Nat} {fills : List Fill} {readings : List Instant}
    (h : Decides bound fills readings n) (hzero : bound = 0) :
    fills = [] ∧ readings = [] ∧ n = 0 := by
  cases h with
  | nothing => exact ⟨rfl, rfl, rfl⟩
  | accepted _ hbelow =>
      rw [Draw.rejectionLimit, hzero, Nat.mul_zero] at hbelow
      exact absurd hbelow (Nat.not_lt_zero _)
  | failed hbound => omega

theorem settles_draw_iff (bound : Nat) (f : Fill) :
    Draw.settles bound f.draw = true ↔ f.Settles bound := by
  cases f with
  | none => exact iff_of_true rfl trivial
  | some bytes =>
      rw [Settles, ← FourBytes.toNat_toUInt32]
      exact decide_eq_true_iff

theorem forall_map_draw_iff {bound : Nat} {passed : List Fill} :
    (∀ d ∈ passed.map draw, Draw.settles bound d = false) ↔ ∀ f ∈ passed, ¬ f.Settles bound := by
  rw [List.forall_mem_map]
  refine forall₂_congr fun f _ => ?_
  rw [← settles_draw_iff, Bool.not_eq_true]

/-- Every draw is that of a fill, so to speak of the fills of a source of draws is no
restriction. -/
theorem exists_draw_eq (d : Draw) : ∃ f : Fill, f.draw = d := by
  cases d with
  | none => exact ⟨none, rfl⟩
  | some word => exact ⟨some (.ofWord word), congrArg some (FourBytes.toUInt32_ofWord word)⟩

theorem exists_map_draw_eq (draws : List Draw) : ∃ fills : List Fill, fills.map draw = draws :=
  List.map_surjective_iff.mpr exists_draw_eq draws

theorem Decides.yields {bound n : Nat} {fills : List Fill} {readings : List Instant}
    (h : Decides bound fills readings n) (hbound : 0 < bound) :
    Draw.Yields bound (fills.map draw) readings n := by
  cases h with
  | nothing => omega
  | accepted hpassed hbelow =>
      rw [List.map_append, ← FourBytes.toNat_toUInt32]
      rw [← FourBytes.toNat_toUInt32] at hbelow
      exact .accepted (forall_map_draw_iff.mpr hpassed) hbelow
  | @failed _ _ passed now _ hpassed hn =>
      obtain rfl : (now.nanos % bound).toNat = n := by omega
      rw [List.map_append]
      exact .failed (forall_map_draw_iff.mpr hpassed)

theorem decides_of_yields {bound n : Nat} {draws : List Draw} {readings : List Instant}
    (h : Draw.Yields bound draws readings n) (hbound : 0 < bound) :
    ∃ fills : List Fill, fills.map draw = draws ∧ Decides bound fills readings n := by
  cases h with
  | @accepted rejected word hrejected hword =>
      obtain ⟨passed, rfl⟩ := exists_map_draw_eq rejected
      have hnumber := FourBytes.toNat_toUInt32 (.ofWord word)
      rw [FourBytes.toUInt32_ofWord] at hnumber
      rw [hnumber] at hword ⊢
      refine ⟨passed ++ [some (.ofWord word)], ?_,
        @Decides.accepted bound passed (.ofWord word) (forall_map_draw_iff.mp hrejected) hword⟩
      rw [List.map_append, List.map_singleton, draw, Option.map_some, FourBytes.toUInt32_ofWord]
  | @failed rejected now hrejected =>
      obtain ⟨passed, rfl⟩ := exists_map_draw_eq rejected
      have hnonneg := Int.emod_nonneg now.nanos (by omega : (bound : Int) ≠ 0)
      refine ⟨passed ++ [none], ?_, .failed hbound (forall_map_draw_iff.mp hrejected) ?_⟩
      · rw [List.map_append]
        rfl
      · exact Int.toNat_of_nonneg hnonneg

end Fill

section

variable {κ ρ : Type} [Source κ Instant] [Source ρ Draw]

/-! ## One call -/

theorem uniformBelow_zero (clock : Supply κ) (random : Supply ρ) :
    uniformBelow 0 clock random = some ⟨0, clock, random⟩ := if_pos rfl

/-- A call finds a number exactly if the fills that it is given, and its reading of the clock,
lead to it. -/
theorem uniformBelow_eq_some_iff_decides (bound : Nat) {clock : Supply κ} {random : Supply ρ}
    {drawn : Drawn κ ρ Nat} :
    uniformBelow bound clock random = some drawn ↔
      ∃ fills readings, random.Gives (fills.map Fill.draw) drawn.random ∧
        clock.Gives readings drawn.clock ∧ Fill.Decides bound fills readings drawn.value := by
  rcases Nat.eq_zero_or_pos bound with rfl | hbound
  · rw [uniformBelow_zero]
    constructor
    · intro h
      cases h
      exact ⟨[], [], .nil, .nil, .nothing⟩
    · obtain ⟨n, clock', random'⟩ := drawn
      rintro ⟨fills, readings, hfills, hreadings, hdecides⟩
      obtain ⟨rfl, rfl, hn⟩ := hdecides.eq_nothing rfl
      cases hn
      cases hfills
      cases hreadings
      rfl
  · rw [uniformBelow_eq_some_iff hbound]
    constructor
    · rintro ⟨draws, readings, hdraws, hreadings, hyields⟩
      obtain ⟨fills, rfl, hdecides⟩ := Fill.decides_of_yields hyields hbound
      exact ⟨fills, readings, hdraws, hreadings, hdecides⟩
    · rintro ⟨fills, readings, hfills, hreadings, hdecides⟩
      exact ⟨_, readings, hfills, hreadings, hdecides.yields hbound⟩

/-! ## Consecutive calls -/

/-- A call for each of the bounds, in their order and on the same two supplies. -/
def uniformEach : List Nat → Supply κ → Supply ρ → Option (Drawn κ ρ (List Nat))
  | [], clock, random => some { value := [], clock, random }
  | bound :: bounds, clock, random => do
    let first ← uniformBelow bound clock random
    let rest ← uniformEach bounds first.clock first.random
    some { rest with value := first.value :: rest.value }

/-- One call among others: the fills and readings that it took, and the number that it found. -/
structure Segment where
  bound : Nat
  fills : List Fill
  readings : List Instant
  number : Nat
  deriving DecidableEq, Repr

/-- The number is the one that the fills and readings lead to. -/
def Segment.Decided (s : Segment) : Prop := Fill.Decides s.bound s.fills s.readings s.number

theorem uniformEach_cons_eq_some_iff {bound : Nat} {bounds : List Nat} {clock : Supply κ}
    {random : Supply ρ} {drawn : Drawn κ ρ (List Nat)} :
    uniformEach (bound :: bounds) clock random = some drawn ↔
      ∃ first rest, uniformBelow bound clock random = some first ∧
        uniformEach bounds first.clock first.random = some rest ∧
        drawn = { rest with value := first.value :: rest.value } := by
  constructor
  · intro h
    obtain ⟨first, hfirst, h⟩ := Option.bind_eq_some_iff.mp h
    obtain ⟨rest, hrest, h⟩ := Option.bind_eq_some_iff.mp h
    cases h
    exact ⟨first, rest, hfirst, hrest, rfl⟩
  · rintro ⟨first, rest, hfirst, hrest, rfl⟩
    refine Option.bind_eq_some_iff.mpr ⟨first, hfirst, ?_⟩
    exact Option.bind_eq_some_iff.mpr ⟨rest, hrest, rfl⟩

/-- What the calls took, put end to end, is what the supplies gave. -/
theorem uniformEach_eq_some_iff {bounds : List Nat} {clock : Supply κ} {random : Supply ρ}
    {drawn : Drawn κ ρ (List Nat)} :
    uniformEach bounds clock random = some drawn ↔
      ∃ segments : List Segment, segments.map Segment.bound = bounds ∧
        (∀ s ∈ segments, s.Decided) ∧
        random.Gives ((segments.flatMap Segment.fills).map Fill.draw) drawn.random ∧
        clock.Gives (segments.flatMap Segment.readings) drawn.clock ∧
        drawn.value = segments.map Segment.number := by
  obtain ⟨numbers, clock', random'⟩ := drawn
  induction bounds generalizing clock random numbers with
  | nil =>
      constructor
      · intro h
        cases h
        exact ⟨[], rfl, by simp, .nil, .nil, rfl⟩
      · rintro ⟨segments, hbounds, -, hfills, hreadings, hnumbers⟩
        obtain rfl := List.map_eq_nil_iff.mp hbounds
        cases hfills
        cases hreadings
        cases hnumbers
        rfl
  | cons bound bounds ih =>
      rw [uniformEach_cons_eq_some_iff]
      constructor
      · rintro ⟨first, ⟨numbers, clock', random'⟩, hfirst, hrest, heq⟩
        cases heq
        obtain ⟨fills, readings, hfills, hreadings, hdecides⟩ :=
          (uniformBelow_eq_some_iff_decides bound).mp hfirst
        obtain ⟨segments, rfl, hdecided, hfills', hreadings', rfl⟩ := (ih _).mp hrest
        refine ⟨⟨bound, fills, readings, first.value⟩ :: segments, rfl, ?_, ?_, ?_, rfl⟩
        · exact List.forall_mem_cons.mpr ⟨hdecides, hdecided⟩
        · rw [List.flatMap_cons, List.map_append]
          exact hfills.append hfills'
        · rw [List.flatMap_cons]
          exact hreadings.append hreadings'
      · rintro ⟨_ | ⟨s, segments⟩, hbounds, hdecided, hfills, hreadings, hnumbers⟩
        · cases hbounds
        · cases hbounds
          cases hnumbers
          obtain ⟨hs, hdecided⟩ := List.forall_mem_cons.mp hdecided
          rw [List.flatMap_cons, List.map_append] at hfills
          rw [List.flatMap_cons] at hreadings
          obtain ⟨random₁, hfills, hfills'⟩ := Supply.gives_append_iff.mp hfills
          obtain ⟨clock₁, hreadings, hreadings'⟩ := Supply.gives_append_iff.mp hreadings
          refine ⟨⟨s.number, clock₁, random₁⟩, ⟨segments.map Segment.number, clock', random'⟩,
            ?_, ?_, rfl⟩
          · exact (uniformBelow_eq_some_iff_decides s.bound).mpr ⟨_, _, hfills, hreadings, hs⟩
          · exact (ih _).mpr ⟨segments, rfl, hdecided, hfills', hreadings', rfl⟩

end

/-! ## Words are passed over evenly -/

namespace Draw

theorem rejectionLimit_isGreatest {bound : Nat} (hbound : 0 < bound) :
    IsGreatest {m | bound ∣ m ∧ m ≤ UInt32.size - 1} (rejectionLimit bound) := by
  constructor
  · exact ⟨Nat.dvd_mul_left .., Nat.div_mul_le_self ..⟩
  · rintro m ⟨⟨k, rfl⟩, hm⟩
    rw [rejectionLimit, Nat.mul_comm bound]
    exact Nat.mul_le_mul_right _ ((Nat.le_div_iff_mul_le hbound).mpr (by rwa [Nat.mul_comm]))

theorem rejectionLimit_le_size (bound : Nat) : rejectionLimit bound ≤ UInt32.size :=
  Nat.le_trans (Nat.div_mul_le_self ..) (Nat.sub_le ..)

/-- The limit is the same when it is computed in words: nothing wraps around. -/
theorem toNat_rejectionLimit {bound : Nat} (hword : bound < UInt32.size) :
    (UInt32.ofNat (UInt32.size - 1) / UInt32.ofNat bound * UInt32.ofNat bound).toNat
      = rejectionLimit bound := by
  have hle : (UInt32.size - 1) / bound * bound ≤ UInt32.size - 1 := Nat.div_mul_le_self ..
  have hsize : UInt32.size = 2 ^ 32 := rfl
  have hmax : (UInt32.ofNat (UInt32.size - 1)).toNat = UInt32.size - 1 := rfl
  rw [UInt32.toNat_mul, UInt32.toNat_div, hmax, UInt32.toNat_ofNat_of_lt' hword, rejectionLimit]
  exact Nat.mod_eq_of_lt (by omega)

/-- Words below a limit are counted as the numbers that they are. -/
theorem card_words_below {limit : Nat} (hlimit : limit ≤ UInt32.size) (p : Nat → Prop)
    [DecidablePred p] :
    (Finset.univ.filter fun word : UInt32 => word.toNat < limit ∧ p word.toNat).card
      = limit.count p := by
  rw [Nat.count_eq_card_filter_range]
  refine Finset.card_nbij' UInt32.toNat UInt32.ofNat ?_ ?_ ?_ ?_
  · intro word h
    obtain ⟨-, hlt, hp⟩ := Finset.mem_filter.mp h
    exact Finset.mem_filter.mpr ⟨Finset.mem_range.mpr hlt, hp⟩
  · intro n h
    obtain ⟨hn, hp⟩ := Finset.mem_filter.mp h
    have hlt := Finset.mem_range.mp hn
    refine Finset.mem_filter.mpr ⟨Finset.mem_univ _, ?_⟩
    rw [UInt32.toNat_ofNat_of_lt' (Nat.lt_of_lt_of_le hlt hlimit)]
    exact ⟨hlt, hp⟩
  · intro word _
    exact UInt32.ofNat_toNat
  · intro n h
    have hlt := Finset.mem_range.mp (Finset.mem_filter.mp h).1
    exact UInt32.toNat_ofNat_of_lt' (Nat.lt_of_lt_of_le hlt hlimit)

/-- The words that are passed over. -/
def rejected (bound : Nat) : Finset UInt32 := {word | settles bound (some word) = false}

/-- The words that are accepted and lead to a number. -/
def leadingTo (bound n : Nat) : Finset UInt32 :=
  {word | settles bound (some word) = true ∧ word.toNat % bound = n}

theorem card_rejected_add_rejectionLimit (bound : Nat) :
    (rejected bound).card + rejectionLimit bound = UInt32.size := by
  have hall : (Finset.univ : Finset UInt32).card = UInt32.size :=
    FinEnum.card_eq_fintypeCard.symm
  have haccepted := card_words_below (rejectionLimit_le_size bound) fun _ => True
  have hsplit := Finset.card_filter_add_card_filter_not (s := (Finset.univ : Finset UInt32))
    fun word => settles bound (some word) = false
  have hsame : (Finset.univ.filter fun word => ¬ settles bound (some word) = false)
      = Finset.univ.filter fun word : UInt32 => word.toNat < rejectionLimit bound ∧ True := by
    refine Finset.filter_congr fun word _ => ?_
    rw [settles, Bool.not_eq_false, decide_eq_true_iff, and_true]
  rw [hsame, haccepted, Nat.count_true, hall] at hsplit
  exact hsplit

theorem card_rejected_le {bound : Nat} (hbound : 0 < bound) : (rejected bound).card ≤ bound := by
  have hcard := card_rejected_add_rejectionLimit bound
  have hdivision := Nat.div_add_mod' (UInt32.size - 1) bound
  have hrest := Nat.mod_lt (UInt32.size - 1) hbound
  have hsize : UInt32.size = 2 ^ 32 := rfl
  rw [rejectionLimit] at hcard
  omega

theorem two_mul_card_rejected_le {bound : Nat} (hbound : 0 < bound) (hword : bound < UInt32.size) :
    2 * (rejected bound).card ≤ UInt32.size := by
  have hcard := card_rejected_add_rejectionLimit bound
  have hle := card_rejected_le hbound
  have hreach : bound ≤ rejectionLimit bound :=
    (rejectionLimit_isGreatest hbound).2 ⟨Nat.dvd_refl bound, Nat.le_sub_one_of_lt hword⟩
  omega

theorem card_leadingTo {bound n : Nat} (h : n < bound) :
    (leadingTo bound n).card = rejectionLimit bound / bound := by
  have hmultiple : rejectionLimit bound % bound = 0 := Nat.mul_mod_left ..
  have hsame : leadingTo bound n
      = Finset.univ.filter fun word : UInt32 =>
          word.toNat < rejectionLimit bound ∧ word.toNat ≡ n [MOD bound] := by
    refine Finset.filter_congr fun word _ => ?_
    rw [settles, decide_eq_true_iff, Nat.ModEq, Nat.mod_eq_of_lt h]
  rw [hsame, card_words_below (rejectionLimit_le_size bound) (· ≡ n [MOD bound]),
    Nat.count_modEq_card _ (by omega), hmultiple, if_neg (Nat.not_lt_zero _), Nat.add_zero]

end Draw

/-! ## Numbers are drawn evenly -/

/-- A call for a number below a bound takes fills up to the first that fails or is below the
limit, and its number is the remainder of that fill, or of the one reading of the clock that
is taken after a failure; it is below the bound. Calls one after the other take one segment of
the fills after the other. The limit is the greatest multiple of the bound that is a word, also
when it is computed in words. At most as many words as the bound says are passed over, and never
more than half of them, and each number below the bound is led to by equally many words. -/
theorem numbers_drawn_evenly {κ ρ : Type} [Source κ Instant] [Source ρ Draw] {bound : Nat}
    (hbound : 0 < bound) (hword : bound < 2 ^ 32) :
    (∀ (clock : Supply κ) (random : Supply ρ) (drawn : Drawn κ ρ Nat),
      (uniformBelow bound clock random = some drawn ↔
        ∃ fills readings, random.Gives (fills.map Fill.draw) drawn.random ∧
          clock.Gives readings drawn.clock ∧ Fill.Decides bound fills readings drawn.value) ∧
      (uniformBelow bound clock random = some drawn → drawn.value < bound)) ∧
    (∀ (bounds : List Nat) (clock : Supply κ) (random : Supply ρ) (drawn : Drawn κ ρ (List Nat)),
      uniformEach bounds clock random = some drawn ↔
        ∃ segments : List Segment, segments.map Segment.bound = bounds ∧
          (∀ s ∈ segments, s.Decided) ∧
          random.Gives ((segments.flatMap Segment.fills).map Fill.draw) drawn.random ∧
          clock.Gives (segments.flatMap Segment.readings) drawn.clock ∧
          drawn.value = segments.map Segment.number) ∧
    IsGreatest {m | bound ∣ m ∧ m ≤ 2 ^ 32 - 1} (Draw.rejectionLimit bound) ∧
    (UInt32.ofNat (2 ^ 32 - 1) / UInt32.ofNat bound * UInt32.ofNat bound).toNat
      = Draw.rejectionLimit bound ∧
    (Draw.rejected bound).card ≤ bound ∧ 2 * (Draw.rejected bound).card ≤ 2 ^ 32 ∧
    ∀ n, n < bound → (Draw.leadingTo bound n).card = Draw.rejectionLimit bound / bound := by
  refine ⟨?_, ?_, Draw.rejectionLimit_isGreatest hbound, Draw.toNat_rejectionLimit hword,
    Draw.card_rejected_le hbound, Draw.two_mul_card_rejected_le hbound hword,
    fun _ => Draw.card_leadingTo⟩
  · intro clock random drawn
    exact ⟨uniformBelow_eq_some_iff_decides bound, uniformBelow_lt hbound⟩
  · intro bounds clock random drawn
    exact uniformEach_eq_some_iff

/-- Two numbers below three: the greatest word is passed over for the first, and for the second
the source fails a nanosecond before 1970. -/
theorem numbers_drawn_evenly_below_three :
    let fills : List Fill := [some ⟨255, 255, 255, 255⟩, some ⟨0, 0, 1, 4⟩, none]
    let clock : Supply (Tape Instant) := ⟨⟨[⟨-1⟩], ⟨0⟩⟩, 0, 1⟩
    let random : Supply (Tape Draw) := ⟨⟨fills.map Fill.draw, none⟩, 0, 3⟩
    0 < 3 ∧ 3 < 2 ^ 32 ∧
      uniformEach [3, 3] clock random
        = some ⟨[2, 2], ⟨⟨[], ⟨0⟩⟩, 1, 0⟩, ⟨⟨[], none⟩, 3, 0⟩⟩ ∧
      2 ^ 32 - 1 ∈ {m | 3 ∣ m ∧ m ≤ 2 ^ 32 - 1} ∧
      (Draw.rejected 3).card ≤ 3 ∧ (Draw.leadingTo 3 2).card = (2 ^ 32 - 1) / 3 := by
  intro fills clock random
  have hlimit : Draw.rejectionLimit 3 = 2 ^ 32 - 1 := rfl
  obtain ⟨-, heach, hgreatest, -, hrejected, -, hleading⟩ :=
    @numbers_drawn_evenly (Tape Instant) (Tape Draw) _ _ 3 (by decide) (by decide)
  rw [hlimit] at hgreatest hleading
  refine ⟨by decide, by decide, ?_, hgreatest.1, hrejected, hleading 2 (by decide)⟩
  let first : Segment := ⟨3, [some ⟨255, 255, 255, 255⟩, some ⟨0, 0, 1, 4⟩], [], 2⟩
  let second : Segment := ⟨3, [none], [⟨-1⟩], 2⟩
  have hfirst : first.Decided := by
    have hpassed : ∀ f ∈ [some (⟨255, 255, 255, 255⟩ : FourBytes)], ¬ Fill.Settles 3 f := by
      decide
    exact .accepted hpassed (by decide)
  have hsecond : second.Decided :=
    @Fill.Decides.failed 3 2 [] ⟨-1⟩ (by decide) (by simp) (by decide)
  have hdecided : ∀ s ∈ [first, second], s.Decided :=
    List.forall_mem_cons.mpr ⟨hfirst, List.forall_mem_singleton.mpr hsecond⟩
  exact (heach _ _ _ _).mpr ⟨[first, second], rfl, hdecided,
    Supply.gives_tape none (fills.map Fill.draw) 0, Supply.gives_tape (⟨0⟩ : Instant) [⟨-1⟩] 0,
    rfl⟩

end IdMint
