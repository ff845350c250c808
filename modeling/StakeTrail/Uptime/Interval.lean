import StakeTrail.Fault
import StakeTrail.Uptime.ActiveSet
import StakeTrail.Word

/-!
# Active intervals

How long a validator has been active without a gap, and how often it signed in that time. A `Tracker` follows
the validators through one batch; `merge` joins what it finds to what is stored.
-/

namespace StakeTrail.Uptime

/-- The latest active interval of a validator. -/
structure Interval where
  owner : String
  first : Nat
  last : Nat
  votes : Nat
  deriving DecidableEq, Repr, Inhabited

/-- The height after a given one. There is none after the greatest word. -/
def successor (height : Nat) : Except Fault Nat :=
  if height < Word.top then .ok (height + 1) else .error .crash

theorem successor_eq {height next : Nat} (h : successor height = .ok next) : next = height + 1 := by
  unfold successor at h
  split at h <;> cases h
  rfl

/-- Joins an interval to the stored one: it extends the stored interval when it starts right after it, and
replaces it otherwise. -/
def merge (stored : Option Interval) (incoming : Interval) : Except Fault Interval :=
  match stored with
  | none => .ok incoming
  | some s => do
    let next ← successor s.last
    if next = incoming.first then
      if s.votes + incoming.votes ≤ Word.top then
        .ok ⟨incoming.owner, s.first, incoming.last, s.votes + incoming.votes⟩
      else .error .crash
    else .ok incoming

/-- The intervals of a batch by consensus address. -/
abbrev Tracker := List (String × Interval)

namespace Tracker

/-- The interval of a validator that is active at a height: continued when it reached the height before. -/
def extend (height : Nat) (owner : String) : Option Interval → Except Fault Interval
  | none => .ok ⟨owner, height, height, 0⟩
  | some entry => do
    let next ← successor entry.last
    if next = height then .ok { entry with last := height } else .ok ⟨owner, height, height, 0⟩

/-- Records that the members of a set are active at a height. -/
def addSet (height : Nat) : Tracker → ActiveSet → Except Fault Tracker
  | tracker, [] => .ok tracker
  | tracker, (address, owner) :: rest =>
    match extend height owner ((Keyed.get? Prod.fst address tracker).map (·.2)) with
    | .error e => .error e
    | .ok entry => addSet height (Keyed.put Prod.fst (address, entry) tracker) rest

/-- Counts the commit signatures of tracked validators. -/
def addCommit (tracker : Tracker) (signatures : List Signature) : Tracker :=
  signatures.foldl (fun t s =>
    if s.flag = .commit then
      match Keyed.get? Prod.fst (setKey s.validator) t with
      | some (address, entry) => Keyed.put Prod.fst (address, { entry with votes := entry.votes + 1 }) t
      | none => t
    else t) tracker

/-- Whether one row comes before another by owner. -/
def byOwner (a b : Interval) : Bool := decide (a.owner ≤ b.owner)

/-- The intervals found, ordered by owner. -/
def rows (tracker : Tracker) : List Interval := (tracker.map (·.2)).mergeSort byOwner

end Tracker

end StakeTrail.Uptime
