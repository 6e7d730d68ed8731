/-!
# Positional numerals

Decimal text, hexadecimal keys, base 62 ids and big-endian words are one idea
with four alphabets: a list of digits, most significant first, read by
`value` and written by `digits`. Zero has no digits, so `digits` is the
shortest numeral of a number; a format that wants more (a lone `0`, sixteen
places) pads it.

`boundedValue?` reads a numeral that has to stay within a limit, and asks at every
digit whether the next partial value would still fit. No partial value ever
passes the limit, so the same steps can be taken in machine words.
-/

namespace IdMint.Numeral

/-- The number that a list of digits denotes. -/
def value (base : Nat) (ds : List Nat) : Nat := ds.foldl (fun n d => n * base + d) 0

/-- The digits of `n`, most significant first and without leading zeros. -/
def digits (base n : Nat) : List Nat := go n n []
where
  /-- Puts the digits of the number in front of `below`. Each round takes one digit
  off, so `n` rounds are enough for `n`. -/
  go : Nat → Nat → List Nat → List Nat
    | 0, _, below => below
    | rounds + 1, n, below => if n = 0 then below else go rounds (n / base) (n % base :: below)

/-- The value of a list of digits, or `none` if it lies above the limit, which is to
be no smaller than a digit. -/
def boundedValue? (base limit : Nat) (ds : List Nat) : Option Nat :=
  ds.foldlM (fun n d => if (limit - d) / base < n then none else some (n * base + d)) 0

end IdMint.Numeral
