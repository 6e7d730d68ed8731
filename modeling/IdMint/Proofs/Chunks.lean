import IdMint.Proofs.Turns
import IdMint.Random.Entropy
import Mathlib.Algebra.GroupWithZero.Nat
import Mathlib.Data.List.SplitLengths

/-!
# How bytes are cut does not show

The kernel answers in pieces of its own choosing and may be interrupted at any
time. All that a fill can see of this are the stretches between two failures: how
many bytes there are before the next one, and which. It takes its bytes from the
front of the first stretch, and if that is too short it is used up and the next
one is in front.

So two scripts with the same stretches answer the same to everything, and two
scripts that start with the same bytes answer the same for as long as these bytes
last. Draws are fills of four bytes, and the suffix of a flow number depends on its
source by nothing but the draws that it is given.
-/

namespace IdMint

namespace Entropy

def Reply.delivered : Reply → Bytes
  | .bytes delivered => delivered
  | .interrupted => []
  | .failed => []

/-- All bytes that the replies hold. -/
def stored (replies : List Reply) : Bytes := replies.flatMap Reply.delivered

/-- The bytes before the first failure, the end of the replies being one. -/
def available (replies : List Reply) : Bytes :=
  stored (replies.takeWhile fun reply => reply ≠ .failed)

/-- The bytes before the first failure, those between it and the second one, and so on. -/
def stretches : List Reply → List Bytes
  | [] => [[]]
  | .failed :: rest => [] :: stretches rest
  | .interrupted :: rest => stretches rest
  | .bytes delivered :: rest => (stretches rest).modifyHead (delivered ++ ·)

theorem available_bytes (delivered : Bytes) (rest : List Reply) :
    available (.bytes delivered :: rest) = delivered ++ available rest := by
  rw [available, List.takeWhile_cons_of_pos (by simp)]
  rfl

theorem stretches_eq_cons (replies : List Reply) :
    ∃ later, stretches replies = available replies :: later := by
  fun_induction stretches replies with
  | case1 => exact ⟨_, rfl⟩
  | case2 rest ih => exact ⟨_, rfl⟩
  | case3 rest ih => exact ih
  | case4 delivered rest ih =>
      obtain ⟨later, hlater⟩ := ih
      rw [hlater, available_bytes]
      exact ⟨later, rfl⟩

theorem flatten_stretches (replies : List Reply) :
    (stretches replies).flatten = stored replies := by
  fun_induction stretches replies with
  | case1 => rfl
  | case2 rest ih => exact ih
  | case3 rest ih => exact ih
  | case4 delivered rest ih =>
      obtain ⟨later, hlater⟩ := stretches_eq_cons rest
      rw [hlater, List.flatten_cons] at ih
      rw [hlater, List.modifyHead_cons, List.flatten_cons, List.append_assoc, ih]
      rfl

/-! ## One fill -/

/-- What a fill does to the stretches. -/
inductive Takes (size : Nat) : List Bytes → Option Bytes → List Bytes → Prop
  | enough {front : Bytes} {later : List Bytes} (h : size ≤ front.length) :
      Takes size (front :: later) (some (front.take size)) (front.drop size :: later)
  | tooFew {front next : Bytes} {later : List Bytes} (h : front.length < size) :
      Takes size (front :: next :: later) none (next :: later)
  /-- At the end every further request fails. -/
  | atEnd {front : Bytes} (h : front.length < size) : Takes size [front] none [[]]

theorem Takes.unique {size : Nat} {before after after' : List Bytes} {out out' : Option Bytes}
    (h : Takes size before out after) (h' : Takes size before out' after') :
    out = out' ∧ after = after' := by
  cases h with
  | enough h =>
      cases h' with
      | enough => exact ⟨rfl, rfl⟩
      | tooFew h' => omega
      | atEnd h' => omega
  | tooFew h =>
      cases h' with
      | enough h' => omega
      | tooFew => exact ⟨rfl, rfl⟩
  | atEnd h =>
      cases h' with
      | enough h' => omega
      | atEnd => exact ⟨rfl, rfl⟩

theorem takes_zero (replies : List Reply) :
    Takes 0 (stretches replies) (some []) (stretches replies) := by
  obtain ⟨later, hlater⟩ := stretches_eq_cons replies
  rw [hlater]
  exact .enough (Nat.zero_le _)

/-- Bytes that are all needed stand in front of whatever is still to come. -/
theorem Takes.afterBytes {size : Nat} {before after : List Bytes} {out : Option Bytes}
    (h : Takes size before out after) (delivered : Bytes) :
    Takes (delivered.length + size) (before.modifyHead (delivered ++ ·))
      (out.map (delivered ++ ·)) after := by
  cases h with
  | @enough front later h =>
      rw [List.modifyHead_cons, Option.map_some, ← List.take_length_add_append,
        ← List.drop_length_add_append]
      refine .enough ?_
      rw [List.length_append]
      omega
  | tooFew h =>
      refine .tooFew ?_
      rw [List.length_append]
      omega
  | atEnd h =>
      refine .atEnd ?_
      rw [List.length_append]
      omega

/-- A fill takes its bytes from the stretches, however many requests that needs. -/
theorem takes_fill (replies : List Reply) (size : Nat) :
    Takes size (stretches replies) (fill replies size).bytes?
      (stretches (fill replies size).rest) := by
  fun_induction fill replies size with
  | case1 replies => exact takes_zero replies
  | case2 size => exact .atEnd (Nat.succ_pos _)
  | case3 rest size ih => exact ih
  | case4 rest size =>
      obtain ⟨later, hlater⟩ := stretches_eq_cons rest
      rw [stretches, hlater]
      exact .tooFew (Nat.succ_pos _)
  | case5 delivered rest size h =>
      obtain ⟨later, hlater⟩ := stretches_eq_cons rest
      have hle : size + 1 ≤ delivered.length := Nat.le_of_lt h
      show Takes (size + 1) ((stretches rest).modifyHead (delivered ++ ·))
        (some (delivered.take (size + 1)))
        ((stretches rest).modifyHead (delivered.drop (size + 1) ++ ·))
      rw [hlater, List.modifyHead_cons, List.modifyHead_cons, ← List.take_append_of_le_length hle,
        ← List.drop_append_of_le_length hle]
      refine .enough ?_
      rw [List.length_append]
      omega
  | case6 delivered rest size h ih =>
      have hsize : delivered.length + (size + 1 - delivered.length) = size + 1 := by omega
      have hall := ih.afterBytes delivered
      rw [hsize] at hall
      exact hall

theorem fill_of_le {replies : List Reply} {size : Nat} (h : size ≤ (available replies).length) :
    (fill replies size).bytes? = some ((available replies).take size) ∧
      available (fill replies size).rest = (available replies).drop size ∧
      stored (fill replies size).rest = (stored replies).drop size := by
  obtain ⟨later, hlater⟩ := stretches_eq_cons replies
  obtain ⟨later', hlater'⟩ := stretches_eq_cons (fill replies size).rest
  have htakes := takes_fill replies size
  rw [hlater] at htakes
  obtain ⟨hbytes, hrest⟩ := htakes.unique (.enough h)
  refine ⟨hbytes, ?_, ?_⟩
  · rw [hlater'] at hrest
    exact (List.cons.inj hrest).1
  · rw [← flatten_stretches, ← flatten_stretches, hrest, hlater, List.flatten_cons,
      List.flatten_cons, List.drop_append_of_le_length h]

theorem fill_of_lt {replies : List Reply} {size : Nat} (h : (available replies).length < size) :
    (fill replies size).bytes? = none := by
  obtain ⟨later, hlater⟩ := stretches_eq_cons replies
  have htakes := takes_fill replies size
  rw [hlater] at htakes
  cases later with
  | nil => exact (htakes.unique (.atEnd h)).1
  | cons next later => exact (htakes.unique (.tooFew h)).1

/-! ## Fills one after the other -/

/-- The bytes that fills of the given sizes come to, each made where the one before it has
stopped. -/
def fillEach : List Nat → List Reply → List (Option Bytes)
  | [], _ => []
  | size :: sizes, replies =>
    let filled := fill replies size
    filled.bytes? :: fillEach sizes filled.rest

theorem fillEach_congr {sizes : List Nat} {replies others : List Reply}
    (h : stretches replies = stretches others) :
    fillEach sizes replies = fillEach sizes others := by
  induction sizes generalizing replies others with
  | nil => rfl
  | cons size sizes ih =>
      have htakes := takes_fill replies size
      rw [h] at htakes
      obtain ⟨hbytes, hrest⟩ := htakes.unique (takes_fill others size)
      rw [fillEach, fillEach, hbytes, ih hrest]

/-- As long as the bytes last, each fill is given the next ones. -/
theorem fillEach_of_le {sizes : List Nat} {replies : List Reply}
    (h : sizes.sum ≤ (available replies).length) :
    fillEach sizes replies = (sizes.splitLengths (available replies)).map some := by
  induction sizes generalizing replies with
  | nil => rfl
  | cons size sizes ih =>
      rw [List.sum_cons] at h
      obtain ⟨hbytes, hrest, -⟩ := fill_of_le (by omega : size ≤ (available replies).length)
      have hle : sizes.sum ≤ (available (fill replies size).rest).length := by
        rw [hrest, List.length_drop]
        omega
      rw [fillEach, hbytes, ih hle, hrest, List.splitLengths_cons, List.map_cons]

theorem splitLengths_take (sizes : List Nat) (bytes : Bytes) :
    sizes.splitLengths (bytes.take sizes.sum) = sizes.splitLengths bytes := by
  induction sizes generalizing bytes with
  | nil => rfl
  | cons size sizes ih =>
      rw [List.sum_cons, List.splitLengths_cons, List.splitLengths_cons, List.take_take,
        Nat.min_eq_left (Nat.le_add_right ..), List.drop_take, Nat.add_sub_cancel_left, ih]

theorem take_stored {replies : List Reply} {size : Nat} (h : size ≤ (available replies).length) :
    (stored replies).take size = (available replies).take size := by
  obtain ⟨later, hlater⟩ := stretches_eq_cons replies
  rw [← flatten_stretches, hlater, List.flatten_cons, List.take_append_of_le_length h]

/-- Neither script fails before it has delivered so many bytes, and these are the same. -/
structure AgreeFor (size : Nat) (replies others : List Reply) : Prop where
  enough : size ≤ (available replies).length
  enoughOther : size ≤ (available others).length
  same : (stored replies).take size = (stored others).take size

theorem AgreeFor.fillEach_eq {sizes : List Nat} {replies others : List Reply}
    (h : AgreeFor sizes.sum replies others) : fillEach sizes replies = fillEach sizes others := by
  have hsame := h.same
  rw [take_stored h.enough, take_stored h.enoughOther] at hsame
  rw [fillEach_of_le h.enough, fillEach_of_le h.enoughOther, ← splitLengths_take, hsame,
    splitLengths_take]

end Entropy

/-! ## Draws -/

/-- The draws of a kernel are its fills of four bytes. -/
theorem Kernel.gives_iff {draws : List Draw} {random : Supply Kernel} :
    (∃ later, random.Gives draws later) ↔
      draws.length ≤ random.allowance ∧
        draws = (Entropy.fillEach (List.replicate draws.length 4) random.state.replies).map
          (Option.map BigEndian.toUInt32) := by
  induction draws generalizing random with
  | nil => exact iff_of_true ⟨random, .nil⟩ ⟨Nat.zero_le _, rfl⟩
  | cons draw draws ih =>
      obtain ⟨kernel, asked, allowance⟩ := random
      rw [List.length_cons, List.replicate_succ, Entropy.fillEach, List.map_cons]
      constructor
      · rintro ⟨later, hgives⟩
        cases hgives with
        | cons hnext hrest =>
            cases hnext
            obtain ⟨hle, hdraws⟩ := ih.mp ⟨later, hrest⟩
            exact ⟨Nat.succ_le_succ hle, congrArg (List.cons _) hdraws⟩
      · rintro ⟨hle, hdraws⟩
        obtain ⟨hdraw, hdraws⟩ := List.cons.inj hdraws
        obtain ⟨allowance, rfl⟩ : ∃ n, allowance = n + 1 :=
          Nat.exists_eq_succ_of_ne_zero (Nat.ne_zero_of_lt hle)
        let filled := Entropy.fill kernel.replies 4
        let next : Kernel := ⟨filled.rest, kernel.requests + filled.requests⟩
        obtain ⟨later, hrest⟩ := (@ih ⟨next, asked + 1, allowance⟩).mpr
          ⟨Nat.le_of_succ_le_succ hle, hdraws⟩
        refine ⟨later, .cons ?_ hrest⟩
        rw [hdraw]
        rfl

section

variable {κ ρ σ : Type} [Source κ Instant] [Source ρ Draw] [Source σ Draw]

namespace Flow

/-- A number depends on its source by the draws that it is given. -/
theorem issue_of_gives {tag : Bytes} {q : Sequence} {clock : Supply κ} {random : Supply ρ}
    {issued : Issued κ ρ Number} (h : issue tag q clock random = some issued) :
    ∃ draws, random.Gives draws issued.random ∧
      ∀ {random' later : Supply σ}, random'.Gives draws later →
        issue tag q clock random' = some { issued with random := later } := by
  obtain ⟨turn, drawn, hturn, hdrawn, rfl⟩ := issue_eq_some_iff.mp h
  obtain ⟨draws, readings, hdraws, hreadings, hyields⟩ :=
    (uniformBelow_eq_some_iff (by decide)).mp hdrawn
  refine ⟨draws, hdraws, fun {random' later} hgives => ?_⟩
  refine issue_eq_some_iff.mpr ⟨turn, ⟨drawn.value, drawn.clock, later⟩, hturn, ?_, rfl⟩
  exact (uniformBelow_eq_some_iff (by decide)).mpr ⟨draws, readings, hgives, hreadings, hyields⟩

theorem issueAll_of_gives {tags : List Bytes} {q : Sequence} {clock : Supply κ}
    {random : Supply ρ} {issued : Issued κ ρ (List Number)}
    (h : issueAll tags q clock random = some issued) :
    ∃ draws, random.Gives draws issued.random ∧
      ∀ {random' later : Supply σ}, random'.Gives draws later →
        issueAll tags q clock random' = some { issued with random := later } := by
  have hgo : ∀ {tags : List Bytes} {newestFirst : List Number} {q : Sequence} {clock : Supply κ}
      {random : Supply ρ}, issueAll.go newestFirst q clock random tags = some issued →
      ∃ draws, random.Gives draws issued.random ∧
        ∀ {random' later : Supply σ}, random'.Gives draws later →
          issueAll.go newestFirst q clock random' tags
            = some { issued with random := later } := by
    intro tags
    induction tags with
    | nil =>
        intro newestFirst q clock random h
        cases h
        refine ⟨[], .nil, fun hgives => ?_⟩
        cases hgives
        rfl
    | cons tag tags ih =>
        intro newestFirst q clock random h
        obtain ⟨first, hfirst, h⟩ := Option.bind_eq_some_iff.mp h
        obtain ⟨draws, hdraws, hissue⟩ := issue_of_gives (σ := σ) hfirst
        obtain ⟨more, hmore, hrest⟩ := ih h
        refine ⟨draws ++ more, hdraws.append hmore, fun {random' later} hgives => ?_⟩
        obtain ⟨between, hgives, hgives'⟩ := Supply.gives_append_iff.mp hgives
        rw [issueAll.go, hissue hgives]
        exact hrest hgives'
  exact hgo h

end Flow

end

namespace Entropy

/-! ## Flow numbers -/

/-- A kernel that answers its fills the same gives the same draws. -/
theorem gives_of_fillEach_eq {random random' later : Supply Kernel} {draws : List Draw}
    (h : random.Gives draws later) (hallowance : random'.allowance = random.allowance)
    (hfills : fillEach (List.replicate draws.length 4) random'.state.replies
      = fillEach (List.replicate draws.length 4) random.state.replies) :
    ∃ later', random'.Gives draws later' := by
  obtain ⟨hle, hdraws⟩ := Kernel.gives_iff.mp ⟨later, h⟩
  rw [← hallowance] at hle
  rw [← hfills] at hdraws
  exact Kernel.gives_iff.mpr ⟨hle, hdraws⟩

/-- How the kernel cuts its bytes does not show. A fill succeeds exactly if the bytes before the
first failure are enough, takes these from the front and leaves the next ones in front; a fill
of nothing makes no request. Fills one after the other are given the bytes one after the other,
so they come to the same on two scripts that agree for as many bytes as are asked for, and in
any case on two scripts whose stretches between failures are the same. Flow numbers that were
issued on one script are issued on any other that agrees with it for the bytes of the draws, by
the same draws. -/
theorem cuts_do_not_show :
    (∀ (replies : List Reply) (size : Nat),
      let filled := fill replies size
      (filled.bytes?.isSome ↔ size ≤ (available replies).length) ∧
      ∀ out, filled.bytes? = some out →
        out = (available replies).take size ∧
          available filled.rest = (available replies).drop size ∧
          stored filled.rest = (stored replies).drop size) ∧
    (∀ replies, fill replies 0 = { bytes? := some [], requests := 0, rest := replies }) ∧
    (∀ (sizes : List Nat) (replies others : List Reply),
      (AgreeFor sizes.sum replies others →
        fillEach sizes replies = (sizes.splitLengths (stored replies)).map some ∧
          fillEach sizes others = fillEach sizes replies) ∧
      (stretches others = stretches replies → fillEach sizes others = fillEach sizes replies)) ∧
    ∀ {κ : Type} [Source κ Instant] (tags : List Bytes) (q : Flow.Sequence) (clock : Supply κ)
      (random random' : Supply Kernel) (issued : Flow.Issued κ Kernel (List Flow.Number)),
      Flow.issueAll tags q clock random = some issued → random'.allowance = random.allowance →
      ∃ draws, random.Gives draws issued.random ∧
        (AgreeFor (4 * draws.length) random.state.replies random'.state.replies ∨
            stretches random'.state.replies = stretches random.state.replies →
          ∃ later, random'.Gives draws later ∧
            Flow.issueAll tags q clock random' = some { issued with random := later }) := by
  refine ⟨fun replies size => ⟨?_, fun out hout => ?_⟩, fun replies => ?_,
    fun sizes replies others => ⟨fun h => ⟨?_, h.fillEach_eq.symm⟩, fillEach_congr⟩, ?_⟩
  · constructor
    · intro hsome
      by_contra hlt
      rw [fill_of_lt (Nat.not_le.mp hlt)] at hsome
      cases hsome
    · intro h
      rw [(fill_of_le h).1]
      rfl
  · have h : size ≤ (available replies).length := by
      by_contra hlt
      rw [fill_of_lt (Nat.not_le.mp hlt)] at hout
      cases hout
    obtain ⟨hbytes, hrest⟩ := fill_of_le h
    rw [hbytes] at hout
    exact ⟨(Option.some.inj hout).symm, hrest⟩
  · rw [fill]
  · rw [fillEach_of_le h.enough, ← splitLengths_take, ← take_stored h.enough, splitLengths_take]
  · intro κ _ tags q clock random random' issued hissued hallowance
    obtain ⟨draws, hdraws, hsame⟩ := Flow.issueAll_of_gives (σ := Kernel) hissued
    refine ⟨draws, hdraws, fun hreplies => ?_⟩
    have hfour : (List.replicate draws.length 4).sum = 4 * draws.length := by
      rw [List.sum_replicate_nat, Nat.mul_comm]
    have hfills : fillEach (List.replicate draws.length 4) random'.state.replies
        = fillEach (List.replicate draws.length 4) random.state.replies := by
      rcases hreplies with hagree | hstretches
      · rw [← hfour] at hagree
        exact hagree.fillEach_eq.symm
      · exact fillEach_congr hstretches
    obtain ⟨later, hlater⟩ := gives_of_fillEach_eq hdraws hallowance hfills
    exact ⟨later, hlater, hsame hlater⟩

/-- Six bytes and a failure in one script, the same bytes and more in another that cuts them
otherwise and is interrupted: two fills and the draw of a flow number. -/
theorem cuts_do_not_show_of_interrupted_script :
    ∃ (replies others : List Reply) (clock : Supply (Tape Instant)) (random random' : Supply Kernel)
      (issued issued' : Flow.Issued (Tape Instant) Kernel (List Flow.Number)),
      replies = [.bytes [0, 0, 0, 7, 1, 2], .failed, .bytes [3]] ∧
      others = [.interrupted, .bytes [0], .bytes [], .bytes [0, 0], .interrupted,
        .bytes [7, 1, 2, 3]] ∧
      (fill others 5).bytes?.isSome ∧ available (fill others 5).rest = [2, 3] ∧
      fillEach [1, 0, 5] others = [some [0], some [], some [0, 0, 7, 1, 2]] ∧
      fillEach [1, 0, 5] others = fillEach [1, 0, 5] replies ∧
      random.state.replies = replies ∧ random'.state.replies = others ∧
      Flow.issueAll [ascii "a"] {} clock random = some issued ∧
      Flow.issueAll [ascii "a"] {} clock random' = some issued' ∧
      issued'.value = issued.value ∧
      issued.value.map Flow.Number.suffix = [7] := by
  let replies : List Reply := [.bytes [0, 0, 0, 7, 1, 2], .failed, .bytes [3]]
  let others : List Reply :=
    [.interrupted, .bytes [0], .bytes [], .bytes [0, 0], .interrupted, .bytes [7, 1, 2, 3]]
  let clock : Supply (Tape Instant) := ⟨⟨[⟨0⟩], ⟨0⟩⟩, 0, 1⟩
  let random : Supply Kernel := ⟨⟨replies, 0⟩, 0, 1⟩
  let random' : Supply Kernel := ⟨⟨others, 0⟩, 0, 1⟩
  let issued : Flow.Issued (Tape Instant) Kernel (List Flow.Number) :=
    { value := [{ tag := ascii "a", instant := ⟨0⟩, count := 0, suffix := 7 }]
      sequence := { counter := 0, period := 0 }
      clock := ⟨⟨[], ⟨0⟩⟩, 1, 0⟩
      random := ⟨⟨[.bytes [1, 2], .failed, .bytes [3]], 1⟩, 1, 0⟩ }
  obtain ⟨hfill, -, heach, hflow⟩ := cuts_do_not_show
  have hissued : Flow.issueAll [ascii "a"] {} clock random = some issued := rfl
  obtain ⟨draws, hdraws, hsame⟩ := hflow [ascii "a"] {} clock random random' issued hissued rfl
  have hone : draws.length = 1 := by
    have hasked : 1 = 0 + draws.length := hdraws.asked_eq
    omega
  rw [hone] at hsame
  obtain ⟨later, -, hissued'⟩ := hsame (.inl ⟨by decide, by decide, by decide⟩)
  obtain ⟨hdelivered, hequal⟩ := (heach [1, 0, 5] replies others).1
    ⟨by decide, by decide, by decide⟩
  obtain ⟨henough, hout⟩ := hfill others 5
  refine ⟨replies, others, clock, random, random', issued, { issued with random := later }, rfl,
    rfl, henough.mpr (by decide), (hout [0, 0, 0, 7, 1] (by decide)).2.1, ?_, hequal, rfl, rfl,
    hissued, hissued', rfl, rfl⟩
  exact hequal.trans (hdelivered.trans (by decide))

end Entropy

end IdMint
