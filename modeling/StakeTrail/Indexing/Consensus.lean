import StakeTrail.Chain.Feed
import StakeTrail.Indexing.Session

/-!
# Indexers of the consensus chain

Blocks, staking events, the running total stake with its history, and the uptimes and votes of validators.
The total is computed from the events of the chain and the stored block times, the history from stored events
alone: its target lies where both tables that it reads are complete.
-/

namespace StakeTrail.Indexing.Consensus

open Store Session Uptime

variable {γ : Type}

/-- The checkpoint of the consensus blocks. -/
def blocksName : String := "cl_block"

/-- The checkpoint of the consensus events. -/
def eventsName : String := "cl_staking_event"

/-- The checkpoint of the running total. -/
def totalName : String := "cl_total_stake"

/-- The checkpoint of the history. -/
def historyName : String := "cl_total_stake_hist"

/-- The checkpoint of the active intervals. -/
def uptimeName : String := "cl_validator_uptime"

/-- The checkpoint of the votes. -/
def voteName : String := "cl_validator_vote"

/-- Stores block headers. -/
def blocks (feed : ConsensusFeed) : Indexer (Session γ) where
  name := blocksName
  lag := none
  init := pure ()
  target := Action.ofExcept feed.head
  cover first last := do
    let rows ← Action.ofExcept (Feed.gather first last feed.block)
    onStore (Commit.consensusBlocks blocksName rows last)

/-- Classifies the events of heights that follow each other. -/
def rowsOfHeights : Nat → List (List EventRecord) → Except Fault (List Staking.ConsensusEvent)
  | _, [] => .ok []
  | height, events :: rest => do
    let rows ← Staking.rowsOfBlock height events
    let others ← rowsOfHeights (height + 1) rest
    .ok (rows ++ others)

/-- Stores classified staking events. A block that cannot be classified fails the whole range. -/
def events (feed : ConsensusFeed) : Indexer (Session γ) where
  name := eventsName
  lag := none
  init := pure ()
  target := Action.ofExcept feed.head
  cover first last := do
    let lists ← Action.ofExcept (Feed.gather first last feed.events)
    let rows ← Action.ofExcept (rowsOfHeights first lists)
    onStore (Commit.consensusEvents eventsName rows last)

/-- Adds up the changes of heights that follow each other. -/
def addHeights : Nat → List (List EventRecord) → Action Stake.Deltas Unit
  | _, [] => pure ()
  | height, events :: rest => do
    Stake.Deltas.addEvents height events
    addHeights (height + 1) rest

/-- The changes of heights that follow each other. -/
def deltasOf (first : Nat) (lists : List (List EventRecord)) : Except Fault Stake.Deltas :=
  match addHeights first lists [] with
  | (.ok (), deltas) => .ok deltas
  | (.error e, _) => .error e

/-- The checkpoint of an indexer, or 0 where it was never set up. -/
def storedHeight (name : String) : Action Database Nat := do
  let height ← Store.checkpoints.load name
  pure (height.getD 0)

/-- Stores the running total. Heights that the checkpoint covers are in the total already and are not
applied again. -/
def total (feed : ConsensusFeed) (genesis : Stake.Genesis) : Indexer (Session γ) where
  name := totalName
  lag := none
  init := do
    onStore (seedTotal genesis.point)
    let latest ← onStore latestTotal
    Action.update fun p => { p with ledger := ⟨(latest.map (·.amount)).getD genesis.amount⟩ }
  target := do
    let head ← Action.ofExcept feed.head
    let stored ← onStore (storedHeight blocksName)
    pure (min head stored)
  cover first last := do
    let done ← onStore (storedHeight totalName)
    let next ← Action.ofExcept (successor done)
    let start := max first next
    if start > last then pure ()
    else do
      let lists ← Action.ofExcept (Feed.gather start last feed.events)
      let deltas ← Action.ofExcept (deltasOf start lists)
      let times ← onStore (blockTimes deltas.heights)
      let p ← Action.state
      let (ledger, points) ← Action.ofExcept (p.ledger.apply deltas times)
      onStore (Commit.totals totalName points last)
      Action.update fun p => { p with ledger }

/-- Stores the history of the total: each range goes on from the row with the highest block. -/
def history (genesis : Stake.Genesis) : Indexer (Session γ) where
  name := historyName
  lag := some 1
  init := onStore (seedHistory genesis.historyPoint)
  target := do
    let blocks ← onStore (storedHeight blocksName)
    let events ← onStore (storedHeight eventsName)
    pure (min blocks events)
  cover first last := do
    let latest? ← onStore latestHistory
    let latest := latest?.getD genesis.historyPoint
    let next ← Action.ofExcept (successor latest.block)
    let start := max first next
    let changes ← if start ≤ last then onStore (stakeChanges start last) else pure []
    let (deltas, times) ← Action.ofExcept (Stake.Deltas.ofChanges changes)
    let (_, rows) ← Action.ofExcept ((Stake.Ledger.mk latest.amount).applyByBlock deltas times)
    onStore (Commit.history historyName rows last)

/-- The active set and the signatures of a height. -/
structure Evidence where
  height : Nat
  active : ActiveSet
  signatures : List Signature
  deriving DecidableEq, Repr, Inhabited

/-- Asks for the evidence of a height. -/
def evidence (feed : ConsensusFeed) (height : Nat) : Except Fault Evidence := do
  let validators ← Feed.allValidators feed height
  let signatures ← feed.commit height
  let active ← ActiveSet.ofValidators validators
  .ok ⟨height, active, signatures⟩

/-- Follows the validators through some heights. -/
def track : Tracker → List Evidence → Except Fault Tracker
  | tracker, [] => .ok tracker
  | tracker, e :: rest => do
    let seen ← tracker.addSet e.height e.active
    track (seen.addCommit e.signatures) rest

/-- Stores active intervals. -/
def uptimes (feed : ConsensusFeed) (cache : Cache γ) : Indexer (Session γ) where
  name := uptimeName
  lag := none
  init := pure ()
  target := Action.ofExcept feed.head
  cover first last := do
    let found ← Action.ofExcept (Feed.gather first last (evidence feed))
    let tracker ← Action.ofExcept (track [] found)
    onStore (Commit.intervals uptimeName tracker.rows last)
    onCache (cache.dropUnder Cache.validatorsRoot)

/-- The votes of some heights. -/
def votesOf : List Evidence → Except Fault (List Vote)
  | [] => .ok []
  | e :: rest => do
    let rows ← Uptime.votes e.height e.active e.signatures
    let others ← votesOf rest
    .ok (rows ++ others)

/-- Stores the votes of a sliding window; a window of length zero acts as one of length one. -/
def votes (feed : ConsensusFeed) (cache : Cache γ) (window : Nat) : Indexer (Session γ) where
  name := voteName
  lag := none
  init := pure ()
  target := Action.ofExcept feed.head
  cover first last := do
    let found ← Action.ofExcept (Feed.gather first last (evidence feed))
    let rows ← Action.ofExcept (votesOf found)
    let keepFrom ← Action.ofExcept (Uptime.floor last (max window 1))
    onStore (Commit.votes voteName rows keepFrom last)
    onCache (cache.dropUnder Cache.validatorsRoot)

end StakeTrail.Indexing.Consensus
