import StakeTrail.Store.Database

/-!
# Commits

A commit writes the rows of a range and moves the indexer's checkpoint, in one transaction. Rows are written
over those with their key, so committing blocks, events, stake points, history rows or votes once more
changes nothing; rewards and intervals add up.

`checkpoints` answers the calls of a checkpoint store from the table of checkpoints.
-/

namespace StakeTrail.Store

open Database

/-- Moves a checkpoint forward; it has to be there. -/
def advanceCheckpoint (name : String) (height : Nat) : Action Database Unit := do
  let moved ← statement fun t => (t.isBelow name height, t.advance name height)
  if moved then pure ()
  else do
    let found ← query fun t => t.checkpoint? name
    match found with
    | some _ => pure ()
    | none => Action.fail (.checkpointMissing name)

/-- The checkpoints in the database. -/
def checkpoints : Checkpoints Database where
  setup name := write fun t => { t with checkpoints := Keyed.keep Checkpoint.indexer ⟨name, 0⟩ t.checkpoints }
  load name := query fun t => (t.checkpoint? name).map fun c => Word.readBack c.height
  advance name height := do
    contact
    advanceCheckpoint name height
  list := query fun t =>
    (t.checkpoints.map fun c => ⟨c.indexer, Word.readBack c.height⟩).mergeSort Checkpoint.inOrder

/-- Runs statements and moves a checkpoint in one transaction. -/
def Commit.batch (name : String) (height : Nat) (rows : Action Database Unit) : Action Database Unit :=
  transaction do
    rows
    advanceCheckpoint name height

/-- Commits consensus blocks. -/
def Commit.consensusBlocks (name : String) (rows : List ConsensusBlock) (height : Nat) : Action Database Unit :=
  batch name height <| Action.each (fun row =>
    write fun t => { t with consensusBlocks := Keyed.put ConsensusBlock.height row t.consensusBlocks }) rows

/-- Commits execution blocks, without their withdrawals. -/
def Commit.executionBlocks (name : String) (rows : List ExecutionBlock) (height : Nat) : Action Database Unit :=
  batch name height <| Action.each (fun row =>
    write fun t =>
      { t with
        executionBlocks := Keyed.put ExecutionBlock.height { row with withdrawals := [] } t.executionBlocks }) rows

/-- Commits staking events of the consensus chain. -/
def Commit.consensusEvents (name : String) (rows : List Staking.ConsensusEvent) (height : Nat) :
    Action Database Unit :=
  batch name height <| Action.each (fun row =>
    write fun t => { t with consensusEvents := Keyed.put consensusEventKey row t.consensusEvents }) rows

/-- Commits staking events of the execution chain. -/
def Commit.executionEvents (name : String) (rows : List Staking.ExecutionEvent) (height : Nat) :
    Action Database Unit :=
  batch name height <| Action.each (fun row =>
    write fun t => { t with executionEvents := Keyed.put executionEventKey row t.executionEvents }) rows

/-- Commits points of the running total. -/
def Commit.totals (name : String) (rows : List Stake.Point) (height : Nat) : Action Database Unit :=
  batch name height <| Action.each (fun row =>
    write fun t => { t with totals := Keyed.put Stake.Point.time row t.totals }) rows

/-- Commits rows of the history; each takes over its second. -/
def Commit.history (name : String) (rows : List Stake.HistoryPoint) (height : Nat) : Action Database Unit :=
  batch name height <| Action.each (fun row => do
    write fun t => { t with history := clearSecond row t.history }
    write fun t => { t with history := Keyed.put Stake.HistoryPoint.block row t.history }) rows

/-- Commits active intervals; each extends or replaces the stored one. -/
def Commit.intervals (name : String) (rows : List Uptime.Interval) (height : Nat) : Action Database Unit :=
  batch name height <| Action.each (fun row =>
    write fun t => { t with intervals := putInterval row t.intervals }) rows

/-- Commits votes and removes those below a height. -/
def Commit.votes (name : String) (rows : List Uptime.Vote) (keepFrom height : Nat) : Action Database Unit :=
  batch name height do
    Action.each (fun row => write fun t => { t with votes := Keyed.keep voteKey row t.votes }) rows
    write fun t => { t with votes := pruneVotes keepFrom t.votes }

/-- Reads a stored amount. -/
def readReward (raw : String) : Except Fault Nat :=
  match Text.Numeral.large raw with
  | .ok n => .ok n
  | .error why => .error (.decode (.storedReward raw why))

/-- Adds a delta to the stored rewards. -/
def addReward (delta : Reward.Delta) : Action Database Unit := do
  let row ← query fun t => Keyed.get? RewardRow.address delta.address t.rewards
  let stored ←
    match row with
    | none => pure none
    | some r => do
      let amount ← Action.ofExcept (readReward r.amount)
      pure (some ⟨delta.address, amount, Word.readBack r.height⟩)
  let total := Reward.merge stored delta
  write fun t =>
    { t with rewards := Keyed.put RewardRow.address ⟨total.address, toString total.amount, total.height⟩ t.rewards }

/-- Commits rewards. -/
def Commit.rewards (name : String) (rows : List Reward.Delta) (height : Nat) : Action Database Unit :=
  batch name height <| Action.each addReward rows

/-- Stores the first point of the running total unless its time is taken. -/
def seedTotal (point : Stake.Point) : Action Database Unit :=
  write fun t => { t with totals := Keyed.keep Stake.Point.time point t.totals }

/-- Stores the first row of the history unless its block or its time is taken. -/
def seedHistory (row : Stake.HistoryPoint) : Action Database Unit :=
  write fun t => { t with history := placeHistory row t.history }

end StakeTrail.Store
