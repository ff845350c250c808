import StakeTrail.Action
import StakeTrail.Keyed

/-!
# Checkpoints

The height up to which an indexer's rows are stored. A checkpoint is set up once at height 0 and after that
only moves forward. `Checkpoints` lists the calls that every store answers; `Checkpoint.memory` is a
store that keeps its checkpoints in a list.
-/

namespace StakeTrail

/-- The last height that an indexer has finished. -/
structure Checkpoint where
  indexer : String
  height : Nat
  deriving DecidableEq, Repr, Inhabited

/-- The calls that a store of checkpoints in `σ` answers. -/
structure Checkpoints (σ : Type) where
  /-- Sets up a checkpoint at height 0 unless it is there. -/
  setup : String → Action σ Unit
  /-- The height of a checkpoint; none if it was never set up. -/
  load : String → Action σ (Option Nat)
  /-- Moves a checkpoint forward to a height, never back. -/
  advance : String → Nat → Action σ Unit
  /-- Every checkpoint, ordered by indexer. -/
  list : Action σ (List Checkpoint)

namespace Checkpoint

/-- Whether one checkpoint is listed no later than another. -/
def inOrder (a b : Checkpoint) : Bool := decide (a.indexer ≤ b.indexer)

/-- A store that keeps checkpoints in a list. -/
def memory : Checkpoints (List Checkpoint) where
  setup name := Action.update (Keyed.keep Checkpoint.indexer ⟨name, 0⟩)
  load name := fun points => (.ok ((Keyed.get? Checkpoint.indexer name points).map (·.height)), points)
  advance name height := fun points =>
    match Keyed.get? Checkpoint.indexer name points with
    | some c => (.ok (), Keyed.put Checkpoint.indexer ⟨name, max c.height height⟩ points)
    | none => (.error (.checkpointMissing name), points)
  list := fun points => (.ok (points.mergeSort inOrder), points)

end Checkpoint

/-- A store that is a part of a larger state. -/
def Checkpoints.within {σ τ : Type} (part : τ → σ) (put : σ → τ → τ) (store : Checkpoints σ) :
    Checkpoints τ where
  setup name := (store.setup name).within part put
  load name := (store.load name).within part put
  advance name height := (store.advance name height).within part put
  list := store.list.within part put

end StakeTrail
