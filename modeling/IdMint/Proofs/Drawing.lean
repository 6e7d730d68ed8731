import IdMint.Proofs.Readings
import IdMint.Random.Draw

/-!
# How a number below a bound is found

By the values that the two supplies give there are two ways. Draws are passed
over until one of them is accepted, and its remainder is the number; the clock
is not read then. Or a draw fails, and the number is the remainder of the one
reading that is taken. Either way it is below the bound.
-/

namespace IdMint

/-- The draws made and the readings taken lead to the number. -/
inductive Draw.Yields (bound : Nat) : List Draw → List Instant → Nat → Prop
  | accepted {rejected : List Draw} {word : UInt32}
      (hrejected : ∀ d ∈ rejected, Draw.settles bound d = false)
      (hword : word.toNat < Draw.rejectionLimit bound) :
      Yields bound (rejected ++ [some word]) [] (word.toNat % bound)
  | failed {rejected : List Draw} {now : Instant}
      (hrejected : ∀ d ∈ rejected, Draw.settles bound d = false) :
      Yields bound (rejected ++ [none]) [now] (now.nanos % bound).toNat

theorem Draw.Yields.lt {bound n : Nat} {draws : List Draw} {readings : List Instant}
    (h : Draw.Yields bound draws readings n) (hbound : 0 < bound) : n < bound := by
  cases h with
  | accepted => exact Nat.mod_lt _ hbound
  | @failed _ now =>
      have hlt := Int.emod_lt_of_pos now.nanos (Int.natCast_pos.mpr hbound)
      omega

theorem Draw.Yields.length_le {bound n : Nat} {draws : List Draw} {readings : List Instant}
    (h : Draw.Yields bound draws readings n) : readings.length ≤ 1 := by
  cases h with
  | accepted => exact Nat.zero_le 1
  | failed => exact Nat.le_refl 1

/-- The clock is read as often as a draw fails. -/
theorem Draw.Yields.length_eq {bound n : Nat} {draws : List Draw} {readings : List Instant}
    (h : Draw.Yields bound draws readings n) : readings.length = draws.count none := by
  have hnone : ∀ {rejected : List Draw}, (∀ d ∈ rejected, Draw.settles bound d = false) →
      rejected.count none = 0 := by
    intro rejected hrejected
    exact List.count_eq_zero.mpr fun hfailed => Bool.noConfusion (hrejected none hfailed)
  cases h with
  | accepted hrejected => rw [List.count_append, hnone hrejected]; rfl
  | failed hrejected => rw [List.count_append, hnone hrejected]; rfl

variable {κ ρ : Type} [Source κ Instant] [Source ρ Draw]

/-- What a search for a number can do, by the draws and the readings that it takes. -/
theorem uniformBelow_eq_some_iff {bound : Nat} (hbound : 0 < bound) {clock : Supply κ}
    {random : Supply ρ} {drawn : Drawn κ ρ Nat} :
    uniformBelow bound clock random = some drawn ↔
      ∃ draws readings, random.Gives draws drawn.random ∧ clock.Gives readings drawn.clock ∧
        Draw.Yields bound draws readings drawn.value := by
  rw [uniformBelow, if_neg (by omega)]
  constructor
  · intro h
    obtain ⟨⟨draw, random'⟩, hseek, h⟩ := Option.bind_eq_some_iff.mp h
    obtain ⟨rejected, hdraws, hrejected, hfound⟩ := Supply.seek_eq_some_iff.mp hseek
    cases draw with
    | some word =>
        cases h
        exact ⟨_, [], hdraws, .nil, .accepted hrejected (of_decide_eq_true hfound)⟩
    | none =>
        obtain ⟨⟨now, clock'⟩, hnow, h⟩ := Option.bind_eq_some_iff.mp h
        cases h
        exact ⟨_, _, hdraws, Supply.next?_eq_some_iff.mp hnow, .failed hrejected⟩
  · obtain ⟨n, clock', random'⟩ := drawn
    rintro ⟨draws, readings, hdraws, hreadings, hyields⟩
    cases hyields with
    | accepted hrejected hword =>
        rw [Supply.seek_eq_some_iff.mpr ⟨_, hdraws, hrejected, decide_eq_true hword⟩]
        cases hreadings
        rfl
    | failed hrejected =>
        rw [Supply.seek_eq_some_iff.mpr ⟨_, hdraws, hrejected, rfl⟩]
        show clock.next?.bind _ = _
        rw [Supply.next?_eq_some_iff.mpr hreadings]
        rfl

theorem uniformBelow_lt {bound : Nat} (hbound : 0 < bound) {clock : Supply κ}
    {random : Supply ρ} {drawn : Drawn κ ρ Nat} (h : uniformBelow bound clock random = some drawn) :
    drawn.value < bound := by
  obtain ⟨_, _, _, _, hyields⟩ := (uniformBelow_eq_some_iff hbound).mp h
  exact hyields.lt hbound

end IdMint
