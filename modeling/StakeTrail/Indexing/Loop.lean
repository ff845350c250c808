import StakeTrail.Action
import StakeTrail.Checkpoint
import StakeTrail.Indexing.Range
import StakeTrail.Indexing.Schedule
import StakeTrail.Counter

/-!
# Indexers and their loop

An indexer derives one table from the chain, range by range. Its `Loop` looks at the chain again and again: a
`tick` works off the heights between the checkpoint and the target, piece by piece, if there are enough of
them.

* A piece is committed as a whole, and the first piece that fails ends the tick.
* A cancelled loop starts no further piece.
* `Outcome` says what a tick did, and `run` ticks until the loop is cancelled or its task is lost.
-/

namespace StakeTrail.Indexing

/-- One derived table, with state in `σ`. -/
structure Indexer (σ : Type) where
  /-- The name of the checkpoint. -/
  name : String
  /-- The lag, where it is not that of the schedule. -/
  lag : Option Nat
  /-- Work at start-up. -/
  init : Action σ Unit
  /-- The greatest height that may be worked on now. -/
  target : Action σ Nat
  /-- Commits the rows of a range together with the checkpoint at its end. -/
  cover : Nat → Nat → Action σ Unit

/-- What a tick did. -/
inductive Outcome
  /-- There are not enough new heights. -/
  | skipped (checkpoint target : Nat)
  /-- All new heights are committed. -/
  | indexed (first last : Nat)
  /-- The loop was cancelled between two pieces. -/
  | interrupted (first committed : Nat)
  deriving DecidableEq, Repr, Inhabited

/-- What the loops of all indexers share. -/
structure Loop (σ : Type) where
  checkpoints : Checkpoints σ
  schedule : Schedule
  /-- Whether the loops are to stop. -/
  cancelled : σ → Bool
  /-- Takes note of a count. -/
  count : Counter → σ → σ

namespace Loop

variable {σ : Type}

/-- Runs one piece and counts what came of it. A lost task counts nothing. -/
def piece (loop : Loop σ) (ix : Indexer σ) (start last : Nat) : Action σ Unit := fun s =>
  match ix.cover start last s with
  | (.ok (), s') => (.ok (), loop.count (.batch ix.name) s')
  | (.error .crash, s') => (.error .crash, s')
  | (.error e, s') => (.error e, loop.count (.indexError ix.name e.kind) s')

/-- Works off the heights from `start` on; `first` is where the tick began and `left` bounds the pieces. -/
def work (loop : Loop σ) (ix : Indexer σ) (first target : Nat) : Nat → Nat → Action σ Outcome
  | 0, _ => pure (.indexed first target)
  | left + 1, start => fun s =>
    if start ≤ target then
      if loop.cancelled s then (.ok (.interrupted first (start - 1)), s)
      else
        let last := pieceEnd start target loop.schedule.batch
        match loop.piece ix start last s with
        | (.ok (), s') => work loop ix first target left (last + 1) s'
        | (.error e, s') => (.error e, s')
    else (.ok (.indexed first target), s)

/-- Whether a tick has enough heights to work on. -/
def isDue (loop : Loop σ) (ix : Indexer σ) (checkpoint target : Nat) : Bool :=
  checkpoint < target && ix.lag.getD loop.schedule.lag ≤ target - checkpoint

/-- The checkpoint of an indexer; it has to be set up. -/
def checkpoint (loop : Loop σ) (ix : Indexer σ) : Action σ Nat := do
  match ← loop.checkpoints.load ix.name with
  | some height => pure height
  | none => Action.fail (.checkpointMissing ix.name)

/-- Works off the heights between the checkpoint and the target. -/
def tick (loop : Loop σ) (ix : Indexer σ) : Action σ Outcome := do
  let checkpoint ← loop.checkpoint ix
  let target ← ix.target
  if loop.isDue ix checkpoint target then
    loop.work ix (checkpoint + 1) target (target - checkpoint) (checkpoint + 1)
  else pure (.skipped checkpoint target)

/-- How a run of ticks ends. -/
inductive Ending
  | stopped
  /-- The task was lost. -/
  | lost
  /-- No more ticks are allowed. -/
  | unfinished
  deriving DecidableEq, Repr, Inhabited

/-- Ticks until the loop is cancelled or lost, at most `n` times. A tick that fails is tried again. -/
def run (loop : Loop σ) (ix : Indexer σ) : Nat → σ → Ending × σ
  | 0, s => (.unfinished, s)
  | n + 1, s =>
    if loop.cancelled s then (.stopped, s)
    else
      match loop.tick ix s with
      | (.error .crash, s') => (.lost, s')
      | (_, s') => run loop ix n s'

end Loop

end StakeTrail.Indexing
