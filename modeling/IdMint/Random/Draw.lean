import IdMint.Supply
import IdMint.Text.BigEndian
import IdMint.Time.Instant

/-!
# Uniform numbers below a bound

Random material arrives in draws of 32 bits, and a draw may fail. Of the draws
that succeed only those below the greatest multiple of the bound are used, so
that every remainder is hit by equally many of them; the rest are dropped and
drawn again.

The first draw that fails ends the attempt. The number is then taken from the
clock instead, which is read once. So a number is always found, as long as
accepted draws keep coming or a draw fails.
-/

namespace IdMint

/-- A draw of 32 random bits, or `none` if the source could not deliver. -/
abbrev Draw := Option UInt32

namespace Draw

/-- The greatest multiple of the bound that a 32-bit draw can reach. -/
def rejectionLimit (bound : Nat) : Nat := (UInt32.size - 1) / bound * bound

/-- Whether a draw ends the search: it failed, or it lies below the limit. -/
def settles (bound : Nat) : Draw → Bool
  | none => true
  | some word => word.toNat < rejectionLimit bound

end Draw

/-- A value together with the two supplies that were used to find it. -/
structure Drawn (κ ρ α : Type) where
  value : α
  clock : Supply κ
  random : Supply ρ
  deriving DecidableEq, Repr

variable {κ ρ : Type} [Source κ Instant] [Source ρ Draw]

/-- A number below the bound, uniform as long as no draw fails; zero for the bound
zero. -/
def uniformBelow (bound : Nat) (clock : Supply κ) (random : Supply ρ) :
    Option (Drawn κ ρ Nat) :=
  if bound = 0 then some { value := 0, clock, random }
  else do
    let (draw, random) ← random.seek (Draw.settles bound)
    match draw with
    | some word => some { value := word.toNat % bound, clock, random }
    | none =>
      let (now, clock) ← clock.next?
      some { value := (now.nanos % bound).toNat, clock, random }

end IdMint
