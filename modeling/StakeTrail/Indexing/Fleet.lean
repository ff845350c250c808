import StakeTrail.Indexing.Loop

/-!
# Several indexers at once

A fleet runs one loop for each of its indexers. The loops take turns in steps: a step looks at checkpoint
and target, or works off one piece. `Fleet.step` advances one loop and `Fleet.run` lets a sequence of turns
pass; any sequence of turns is a possible course of events.
-/

namespace StakeTrail.Indexing

variable {σ : Type}

/-- Where a loop stands between two steps. -/
inductive Position
  /-- The next step looks at checkpoint and target. -/
  | waiting
  /-- The next step works off the piece that starts at `start`. -/
  | working (first target start : Nat)
  /-- The loop has seen that it is cancelled. -/
  | stopped
  /-- The task of the loop is lost. -/
  | lost
  deriving DecidableEq, Repr, Inhabited

namespace Position

/-- Whether the loop has ended. -/
def isFinal : Position → Bool
  | stopped | lost => true
  | _ => false

end Position

/-- One step of a loop. -/
def Loop.step (loop : Loop σ) (ix : Indexer σ) : Position → σ → Position × σ
  | .waiting, s =>
    if loop.cancelled s then (.stopped, s)
    else
      let look : Action σ (Nat × Nat) := do
        let checkpoint ← loop.checkpoint ix
        let target ← ix.target
        pure (checkpoint, target)
      match look s with
      | (.ok (checkpoint, target), s') =>
        if loop.isDue ix checkpoint target then (.working (checkpoint + 1) target (checkpoint + 1), s')
        else (.waiting, s')
      | (.error .crash, s') => (.lost, s')
      | (.error _, s') => (.waiting, s')
  | .working first target start, s =>
    if start ≤ target then
      if loop.cancelled s then (.waiting, s)
      else
        let last := pieceEnd start target loop.schedule.batch
        match loop.piece ix start last s with
        | (.ok (), s') => (.working first target (last + 1), s')
        | (.error .crash, s') => (.lost, s')
        | (.error _, s') => (.waiting, s')
    else (.waiting, s)
  | p, s => (p, s)

/-- Several indexers over one state. -/
structure Fleet (σ : Type) where
  loop : Loop σ
  indexers : List (Indexer σ)

namespace Fleet

/-- The names of the indexers. -/
def names (f : Fleet σ) : List String := f.indexers.map (·.name)

/-- Sets up the checkpoints and starts the indexers, in order, up to the first fault. -/
def init (f : Fleet σ) : Action σ Unit :=
  Action.each (fun ix => do f.loop.checkpoints.setup ix.name; ix.init) f.indexers

/-- The positions of loops that have just started. -/
def start (f : Fleet σ) : List Position := f.indexers.map fun _ => .waiting

/-- Lets one indexer take a turn. -/
def step (f : Fleet σ) (turn : Nat) (now : List Position × σ) : List Position × σ :=
  match f.indexers[turn]?, now.1[turn]? with
  | some ix, some p =>
    let (p', s') := f.loop.step ix p now.2
    (now.1.set turn p', s')
  | _, _ => now

/-- Lets the indexers take turns. -/
def run (f : Fleet σ) (turns : List Nat) (now : List Position × σ) : List Position × σ :=
  turns.foldl (fun now turn => f.step turn now) now

/-- Lets everybody take turns, round after round, until the state satisfies a condition; at most `n`
rounds. -/
def runUntil (f : Fleet σ) (done : List Position × σ → Bool) : Nat → List Position × σ → List Position × σ
  | 0, now => now
  | n + 1, now =>
    if done now then now else runUntil f done n (f.run (List.range f.indexers.length) now)

end Fleet

end StakeTrail.Indexing
