import StakeTrail.Chain.Feed
import StakeTrail.Indexing.Session

/-!
# Indexers of the execution chain

Blocks, staking events and rewards. Rewards are committed inside a range too, whenever enough addresses are
pending; each of these commits moves the checkpoint to the block that it ends with.
-/

namespace StakeTrail.Indexing.Execution

open Store Session

variable {γ : Type}

/-- The checkpoint of the execution blocks. -/
def blocksName : String := "el_block"

/-- The checkpoint of the execution events. -/
def eventsName : String := "el_staking_event"

/-- The checkpoint of the rewards. -/
def rewardName : String := "el_reward"

/-- Stores block headers. -/
def blocks (feed : ExecutionFeed) : Indexer (Session γ) where
  name := blocksName
  lag := none
  init := pure ()
  target := Action.ofExcept feed.head
  cover first last := do
    let rows ← Action.ofExcept (Feed.gather first last feed.block)
    onStore (Commit.executionBlocks blocksName rows last)

/-- Stores decoded staking events. A log that cannot be decoded fails the whole range. -/
def events (feed : ExecutionFeed) : Indexer (Session γ) where
  name := eventsName
  lag := none
  init := pure ()
  target := Action.ofExcept feed.head
  cover first last := do
    let logs ← Action.ofExcept (feed.logs first last)
    let rows ← Action.ofExcept (Contract.rowsOfLogs logs)
    onStore (Commit.executionEvents eventsName rows last)

/-- Commits what is pending and drops the cached rewards of its addresses. -/
def commitPending (cache : Cache γ) (pending : Reward.Accumulator) (height : Nat) : Action (Session γ) Unit := do
  let deltas := pending.drained
  onStore (Commit.rewards rewardName deltas height)
  onCache (cache.dropKeys (deltas.map fun d => Cache.rewardKey d.address))

/-- Collects the withdrawals of blocks, and commits them whenever enough addresses are pending. -/
def collect (cache : Cache γ) (flushSize : Nat) :
    Reward.Accumulator → List ExecutionBlock → Action (Session γ) Reward.Accumulator
  | pending, [] => pure pending
  | pending, block :: rest => do
    let pending := pending.addAll block.height block.withdrawals
    if pending.isFull flushSize then do
      commitPending cache pending block.height
      collect cache flushSize [] rest
    else collect cache flushSize pending rest

/-- Stores rewards. -/
def rewards (feed : ExecutionFeed) (cache : Cache γ) (flushSize : Nat) : Indexer (Session γ) where
  name := rewardName
  lag := none
  init := pure ()
  target := Action.ofExcept feed.head
  cover first last := do
    let blocks ← Action.ofExcept (Feed.gather first last feed.block)
    let pending ← collect cache flushSize [] blocks
    commitPending cache pending last

end StakeTrail.Indexing.Execution
