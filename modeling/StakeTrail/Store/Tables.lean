import StakeTrail.Chain.Block
import StakeTrail.Checkpoint
import StakeTrail.Contract.Log
import StakeTrail.Reward
import StakeTrail.Stake.Ledger
import StakeTrail.Staking.Classify
import StakeTrail.Uptime.Vote
import StakeTrail.Word

/-!
# Tables

The rows that the indexers store, each table in the order in which its keys first came. A key identifies a
row; writing a row over one with its key keeps the place.

* Columns hold words: comparisons and orders are those of the signed reading.
* The history has a second key, the time: `clearSecond` lets a later block take over the second of an
  earlier one, so that blocks and times stay distinct.
* `Uptime.Interval` rows extend each other as `putInterval` says.
-/

namespace StakeTrail.Store

/-- The rewards of an address as stored: the amount is decimal text. -/
structure RewardRow where
  address : String
  amount : String
  height : Nat
  deriving DecidableEq, Repr, Inhabited

/-- Every table. -/
structure Tables where
  checkpoints : List Checkpoint := []
  consensusBlocks : List ConsensusBlock := []
  executionBlocks : List ExecutionBlock := []
  consensusEvents : List Staking.ConsensusEvent := []
  executionEvents : List Staking.ExecutionEvent := []
  totals : List Stake.Point := []
  history : List Stake.HistoryPoint := []
  intervals : List Uptime.Interval := []
  votes : List Uptime.Vote := []
  rewards : List RewardRow := []
  deriving DecidableEq, Repr, Inhabited

/-- The key of a consensus event: its block and its place in it. -/
def consensusEventKey (e : Staking.ConsensusEvent) : Nat × Nat := (e.block, e.index)

/-- The key of an execution event: its transaction and its log index. -/
def executionEventKey (e : Staking.ExecutionEvent) : String × Nat := (e.txHash, e.index)

/-- The key of a vote: the whole row. -/
def voteKey (v : Uptime.Vote) : String × Nat := (v.owner, v.block)

/-- Whether one word comes before another in a column. -/
def before (a b : Nat) : Bool := decide (Word.signed a < Word.signed b)

/-- Whether one word comes no later than another in a column. -/
def notAfter (a b : Nat) : Bool := decide (Word.signed a ≤ Word.signed b)

/-- Half words are compared as numbers. -/
theorem before_iff {a b : Nat} (ha : a < 0x80000000) (hb : b < 0x80000000) : before a b = true ↔ a < b := by
  rw [before, Word.signed_of_lt (by omega), Word.signed_of_lt (by omega), decide_eq_true_eq, Int.ofNat_lt]

theorem notAfter_iff {a b : Nat} (ha : a < 0x80000000) (hb : b < 0x80000000) : notAfter a b = true ↔ a ≤ b := by
  rw [notAfter, Word.signed_of_lt (by omega), Word.signed_of_lt (by omega), decide_eq_true_eq, Int.ofNat_le]

/-- The sum of two words in a column. It is an integer only within a signed word; beyond, a column holds a number
that no query hands back as one, so nothing is said of such sums. -/
def columnSum (a b : Nat) : Nat := Word.unsigned (Word.signed a + Word.signed b)

/-- The row that an interval leaves over a stored one: the stored interval continues when the new one starts
right after it. -/
def joined (stored incoming : Uptime.Interval) : Uptime.Interval :=
  if Word.signed stored.last + 1 = Word.signed incoming.first then
    { incoming with first := stored.first, votes := columnSum stored.votes incoming.votes }
  else incoming

/-- Writes an interval. -/
def putInterval (incoming : Uptime.Interval) (rows : List Uptime.Interval) : List Uptime.Interval :=
  match Keyed.get? Uptime.Interval.owner incoming.owner rows with
  | some stored => Keyed.put Uptime.Interval.owner (joined stored incoming) rows
  | none => Keyed.put Uptime.Interval.owner incoming rows

/-- Removes the rows of other blocks in the second of a row. -/
def clearSecond (row : Stake.HistoryPoint) (rows : List Stake.HistoryPoint) : List Stake.HistoryPoint :=
  rows.filter fun r => r.time ≠ row.time || r.block = row.block

/-- Writes a row of the history unless its block or its second is taken. -/
def placeHistory (row : Stake.HistoryPoint) (rows : List Stake.HistoryPoint) : List Stake.HistoryPoint :=
  if rows.any fun r => r.block = row.block || r.time = row.time then rows else rows ++ [row]

/-- Removes the votes below a height. -/
def pruneVotes (keepFrom : Nat) (rows : List Uptime.Vote) : List Uptime.Vote :=
  rows.filter fun v => !before v.block keepFrom

namespace Tables

/-- Moves a checkpoint forward, if it is there and lower. -/
def advance (name : String) (height : Nat) (t : Tables) : Tables :=
  { t with
    checkpoints := t.checkpoints.map fun c => if c.indexer = name ∧ before c.height height then ⟨name, height⟩ else c }

/-- The checkpoint of an indexer. -/
def checkpoint? (t : Tables) (name : String) : Option Checkpoint :=
  Keyed.get? Checkpoint.indexer name t.checkpoints

/-- Whether a checkpoint is there and lower than a height. -/
def isBelow (t : Tables) (name : String) (height : Nat) : Bool :=
  match t.checkpoint? name with
  | some c => before c.height height
  | none => false

end Tables

end StakeTrail.Store
