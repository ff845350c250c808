import StakeTrail.Fault
import StakeTrail.Word

/-!
# Cursors

A `Cursor` hands out the pieces of a range in words, one after the other. Its sums are checked: one that is no word
loses the task. Only the end of a piece is capped at the greatest word instead.
-/

namespace StakeTrail

namespace Word

/-- The sum of two words, capped at the greatest word. -/
def capped (a b : UInt64) : UInt64 := if a.toNat + b.toNat ≤ top then a + b else UInt64.ofNat top

/-- The sum of two words; there has to be one. -/
def sum (a b : UInt64) : Except Fault UInt64 := if a.toNat + b.toNat ≤ top then .ok (a + b) else .error .crash

/-- The difference of two words; there has to be one. -/
def difference (a b : UInt64) : Except Fault UInt64 := if b ≤ a then .ok (a - b) else .error .crash

end Word

namespace Indexing

/-- What is still to be handed out of a range. -/
structure Cursor where
  /-- The first height of the next piece, if there is one. -/
  next : Option UInt64
  /-- The last height of the range. -/
  stop : UInt64
  /-- How many heights a piece holds, the last one apart. -/
  size : UInt64
  deriving DecidableEq, Repr, Inhabited

namespace Cursor

/-- The cursor of a whole range; a batch of zero acts as one. -/
def ofRange (start stop batch : UInt64) : Cursor where
  next := if start ≤ stop then some start else none
  stop := stop
  size := max batch 1

/-- Hands out the next piece, by its first and its last height. -/
def advance (c : Cursor) : Except Fault (Option (UInt64 × UInt64) × Cursor) :=
  match c.next with
  | none => .ok (none, c)
  | some start => do
    let reach ← Word.difference c.size 1
    let last := min (Word.capped start reach) c.stop
    if last < c.stop then
      let next ← Word.sum last 1
      .ok (some (start, last), { c with next := some next })
    else .ok (some (start, last), { c with next := none })

/-- The first `n` pieces. -/
def take : Nat → Cursor → Except Fault (List (UInt64 × UInt64))
  | 0, _ => .ok []
  | n + 1, c => do
    let (piece, rest) ← c.advance
    match piece with
    | none => .ok []
    | some p => (rest.take n).map (p :: ·)

end Cursor

end Indexing

end StakeTrail
