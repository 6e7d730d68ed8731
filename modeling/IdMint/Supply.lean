/-!
# Supplies: readings and draws that run out

Two things come to this program from outside while it works: readings of a
clock and random draws. Both are asked for one at a time, and both can be
asked for without end: a generator that waits for the next millisecond reads
the clock until it moves, and a clock may stand still forever.

A `Source` always has a next value. A `Supply` is a source with an allowance,
the number of values that it may still give, and so every search through it
ends. When the allowance is used up the answer is `none`, which says that
the search was not finished and nothing else; it is never an answer of the
thing searched for. An allowance is bookkeeping: an answer that was reached
is reached again under any larger one.

Everything that waits, redraws or reads once goes through `seek`.
-/

namespace IdMint

/-- States that yield values of `α` one after the other. -/
class Source (σ : Type) (α : outParam Type) where
  next : σ → α × σ

/-- A source together with the number of values that it may still give. -/
structure Supply (σ : Type) where
  state : σ
  /-- How many values it has given so far. -/
  asked : Nat := 0
  /-- How many values it may still give. -/
  allowance : Nat
  deriving DecidableEq, Repr

namespace Supply

variable {σ α : Type} [Source σ α]

/-- The first value that satisfies `p`, the values before it being dropped. -/
def seek (p : α → Bool) (s : Supply σ) : Option (α × Supply σ) :=
  go s.state s.asked s.allowance
where
  /-- Looks at no more than `allowance` values. -/
  go (state : σ) (asked : Nat) : Nat → Option (α × Supply σ)
    | 0 => none
    | allowance + 1 =>
      let (a, later) := Source.next state
      if p a then some (a, { state := later, asked := asked + 1, allowance })
      else go later (asked + 1) allowance

/-- The next value, whatever it is. -/
def next? (s : Supply σ) : Option (α × Supply σ) := s.seek fun _ => true

end Supply

/-- A list of values, and the one that repeats for ever once the list is used up. -/
structure Tape (α : Type) where
  upcoming : List α
  afterwards : α
  deriving DecidableEq, Repr

instance {α : Type} : Source (Tape α) α where
  next t :=
    match t.upcoming with
    | [] => (t.afterwards, t)
    | a :: rest => (a, { t with upcoming := rest })

end IdMint
