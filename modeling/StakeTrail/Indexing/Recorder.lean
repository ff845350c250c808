import StakeTrail.Indexing.Fleet

/-!
# Recorders

A recorder is an indexer without rows: it only moves its checkpoint and takes down which ranges it was asked
for. A script makes its calls fail. A `Rehearsal` is the state of several recorders over one store of
checkpoints, in which loops and fleets can be tried out.
-/

namespace StakeTrail.Indexing

/-- A range that a recorder was asked for. -/
structure Asked where
  first : Nat
  last : Nat
  failed : Bool
  deriving DecidableEq, Repr, Inhabited

/-- The script of a recorder and what it has taken down. -/
structure Recorder where
  name : String := "recording"
  lag : Option Nat := none
  target : Nat := 0
  /-- A range that holds this height fails. -/
  failAt : Option Nat := none
  /-- How many failures are left; none for no end of them. -/
  failures : Option Nat := none
  /-- A range that holds this height loses the task. -/
  crashAt : Option Nat := none
  targetFails : Bool := false
  initFails : Bool := false
  /-- After this many ranges the next success cancels the loop. -/
  cancelAfter : Option Nat := none
  /-- The ranges asked for, the latest first. -/
  asked : List Asked := []
  initialized : Bool := false
  deriving Repr, Inhabited

/-- Whether a height lies in a range. -/
def holds (first last : Nat) (height? : Option Nat) : Bool :=
  match height? with
  | some h => first ≤ h && h ≤ last
  | none => false

/-- Recorders over one store of checkpoints. -/
structure Rehearsal where
  recorders : List Recorder
  points : List Checkpoint := []
  counts : List Counter := []
  cancelled : Bool := false
  deriving Repr, Inhabited

namespace Rehearsal

/-- The checkpoints of a rehearsal. -/
def checkpoints : Checkpoints Rehearsal :=
  Checkpoint.memory.within (·.points) fun points r => { r with points }

/-- The loop of a rehearsal. -/
def loop (schedule : Schedule) : Loop Rehearsal where
  checkpoints := checkpoints
  schedule := schedule
  cancelled := (·.cancelled)
  count c r := { r with counts := c :: r.counts }

/-- The recorder with a number. -/
def recorder (r : Rehearsal) (i : Nat) : Recorder := r.recorders.getD i {}

/-- Changes a recorder. -/
def change (i : Nat) (f : Recorder → Recorder) (r : Rehearsal) : Rehearsal :=
  { r with recorders := r.recorders.modify i f }

/-- Takes down a range. -/
def note (i first last : Nat) (failed : Bool) : Rehearsal → Rehearsal :=
  change i fun recorder => { recorder with asked := ⟨first, last, failed⟩ :: recorder.asked }

/-- Cancels the loop when the recorder has been asked for enough ranges. -/
def cancelWhenDue (i : Nat) (r : Rehearsal) : Rehearsal :=
  match (r.recorder i).cancelAfter with
  | some n => if 0 < n ∧ n ≤ (r.recorder i).asked.length then { r with cancelled := true } else r
  | none => r

/-- Answers a range by the script. -/
def cover (i first last : Nat) : Action Rehearsal Unit := fun r =>
  let recorder := r.recorder i
  if holds first last recorder.crashAt then (.error .crash, r)
  else if holds first last recorder.failAt && recorder.failures != some 0 then
    let left := recorder.failures.map (· - 1)
    (.error (.rpc "boom"), note i first last true (change i (fun recorder => { recorder with failures := left }) r))
  else
    match checkpoints.advance recorder.name last r with
    | (.ok (), r') => (.ok (), cancelWhenDue i (note i first last false r'))
    | (.error e, r') => (.error e, r')

/-- The recorder with a number as an indexer. -/
def indexer (r : Rehearsal) (i : Nat) : Indexer Rehearsal where
  name := (r.recorder i).name
  lag := (r.recorder i).lag
  init := fun r =>
    if (r.recorder i).initFails then (.error (.other "init refused"), r)
    else (.ok (), change i (fun recorder => { recorder with initialized := true }) r)
  target := fun r =>
    if (r.recorder i).targetFails then (.error (.rpc "head unavailable"), r)
    else (.ok (r.recorder i).target, r)
  cover := cover i

/-- All recorders as a fleet. -/
def fleet (r : Rehearsal) (schedule : Schedule) : Fleet Rehearsal where
  loop := loop schedule
  indexers := (List.range r.recorders.length).map r.indexer

/-- Whether every recorder has reached its target or is lost. -/
def isThrough (now : List Position × Rehearsal) : Bool :=
  (now.1.zip now.2.recorders).all fun (p, recorder) =>
    p == .lost ||
      match Keyed.get? Checkpoint.indexer recorder.name now.2.points with
      | some c => recorder.target ≤ c.height
      | none => false

end Rehearsal

end StakeTrail.Indexing
