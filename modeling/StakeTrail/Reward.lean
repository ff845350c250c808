import StakeTrail.Address
import StakeTrail.Chain.Block
import StakeTrail.Keyed

/-!
# Rewards

Withdrawals add up per address, without bound. An `Accumulator` collects those of a batch until enough
addresses are pending and is drained then; `merge` adds what was collected to what is stored.
-/

namespace StakeTrail.Reward

/-- The withdrawals of an address within a batch. -/
structure Delta where
  address : String
  amount : Nat
  height : Nat
  deriving DecidableEq, Repr, Inhabited

/-- All withdrawals of an address so far. -/
structure Total where
  address : String
  amount : Nat
  /-- The height of the latest withdrawal. -/
  height : Nat
  deriving DecidableEq, Repr, Inhabited

/-- The default number of pending addresses that is enough. -/
def standardFlushSize : Nat := 100

/-- Adds a delta to the stored total; the greater height stays. -/
def merge (stored : Option Total) (delta : Delta) : Total :=
  match stored with
  | none => ⟨delta.address, delta.amount, delta.height⟩
  | some s => ⟨delta.address, s.amount + delta.amount, max s.height delta.height⟩

/-- Adds deltas to the stored totals of their addresses, one after the other. -/
def mergeAll (totals : List Total) (deltas : List Delta) : List Total :=
  deltas.foldl (fun totals d =>
    Keyed.put Total.address (merge (Keyed.get? Total.address d.address totals) d) totals) totals

/-- Pending withdrawals, one entry an address. -/
abbrev Accumulator := List Delta

namespace Accumulator

/-- Adds a withdrawal at a height. -/
def add (pending : Accumulator) (height : Nat) (w : Withdrawal) : Accumulator :=
  let address := Address.normalForm w.address
  match Keyed.get? Delta.address address pending with
  | none => pending ++ [⟨address, w.amount, height⟩]
  | some d => Keyed.put Delta.address ⟨address, d.amount + w.amount, max d.height height⟩ pending

/-- Adds the withdrawals of a block. -/
def addAll (pending : Accumulator) (height : Nat) (withdrawals : List Withdrawal) : Accumulator :=
  withdrawals.foldl (fun p w => p.add height w) pending

/-- Whether enough addresses are pending; a size of zero acts as one. -/
def isFull (pending : Accumulator) (flushSize : Nat) : Bool := max flushSize 1 ≤ pending.length

/-- What is pending, ordered by address. -/
def drained (pending : Accumulator) : List Delta :=
  pending.mergeSort fun a b => decide (a.address ≤ b.address)

/-- Takes what is pending, ordered by address; nothing stays. -/
def drain (pending : Accumulator) : List Delta × Accumulator := (pending.drained, [])

end Accumulator

end StakeTrail.Reward
