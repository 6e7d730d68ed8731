import IdMint.Snowflake.Layout
import IdMint.Text.Decimal

/-!
# Addresses

Whoever issues ids has an address, a worker and a datacenter, each a number of
five bits. Two issuers with different addresses do not issue the same id, as long
as their clocks show times that an id can hold; that is what the address is
for. Numbers from outside become an address only if both are in range, and of
two that are not, the worker is named.
-/

namespace IdMint

inductive Role where
  | worker
  | datacenter
  deriving DecidableEq, Repr

def Role.name : Role → Bytes
  | .worker => ascii "worker"
  | .datacenter => ascii "datacenter"

/-- The greatest worker, and the greatest datacenter. -/
def maxAddressId : Int := 31

/-- An id for a part of an address that is out of range. -/
structure OutOfRange where
  role : Role
  id : Int
  deriving DecidableEq, Repr

/-- A range of ids from zero, as messages show it. -/
def rangeText (max : Int) : Bytes := ascii "[0, " ++ Decimal.ofInt max ++ ascii "]"

def OutOfRange.message (e : OutOfRange) : Bytes :=
  e.role.name ++ ascii " id " ++ Decimal.ofInt e.id ++ ascii " is outside "
    ++ rangeText maxAddressId

structure Address where
  worker : Fin 32
  datacenter : Fin 32
  deriving DecidableEq, Repr

namespace Address

/-- An id for a part of an address, if it is in range. -/
def check (role : Role) (id : Int) : Except OutOfRange (Fin 32) :=
  if h : 0 ≤ id ∧ id ≤ maxAddressId then
    .ok ⟨id.toNat, by have := h.2; simp only [maxAddressId] at this; omega⟩
  else .error { role, id }

/-- The address with the given ids, if both are in range. -/
def ofIds (worker datacenter : Int) : Except OutOfRange Address := do
  let worker ← check .worker worker
  let datacenter ← check .datacenter datacenter
  .ok { worker, datacenter }

end Address

end IdMint
