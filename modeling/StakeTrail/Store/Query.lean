import StakeTrail.Store.Commit
import StakeTrail.Text.Case

/-!
# Queries

What the tables say. A query compares and orders whole words, but hands back integers as their low half
words. Addresses asked for are put in lower case first.
-/

namespace StakeTrail.Store

open Database

variable {α : Type}

/-- The first row in an order. -/
def leading? (le : α → α → Bool) (rows : List α) : Option α := (rows.mergeSort le).head?

/-- It is a row that comes before every other. -/
theorem mem_of_leading? {le : α → α → Bool} (trans : ∀ a b c, le a b → le b c → le a c)
    (total : ∀ a b, le a b || le b a) {rows : List α} {a : α} (h : leading? le rows = some a) :
    a ∈ rows ∧ ∀ b ∈ rows, le a b := by
  have hsorted := List.pairwise_mergeSort trans total rows
  obtain ⟨rest, hrest⟩ := List.head?_eq_some_iff.mp h
  rw [hrest] at hsorted
  have hmem : ∀ b, b ∈ rows ↔ b ∈ a :: rest := fun b => by rw [← hrest, List.mem_mergeSort]
  refine ⟨(hmem a).mpr List.mem_cons_self, fun b hb => ?_⟩
  rcases List.mem_cons.mp ((hmem b).mp hb) with rfl | hb
  · simpa using total b b
  · exact (List.pairwise_cons.mp hsorted).1 b hb

/-- The row that no other row precedes is the first one. -/
theorem leading?_eq {le : α → α → Bool} (trans : ∀ a b c, le a b → le b c → le a c)
    (total : ∀ a b, le a b || le b a) {rows : List α} {a : α} (ha : a ∈ rows)
    (hfirst : ∀ b ∈ rows, le b a → b = a) : leading? le rows = some a := by
  rcases h : leading? le rows with _ | b
  · have hmem : a ∈ rows.mergeSort le := List.mem_mergeSort.mpr ha
    rw [leading?, List.head?_eq_none_iff] at h
    rw [h] at hmem
    cases hmem
  · obtain ⟨hb, hle⟩ := mem_of_leading? trans total h
    rw [hfirst b hb (hle a ha)]

/-- A point as a query hands it back. -/
def readBackPoint (p : Stake.Point) : Stake.Point := ⟨Word.low p.time, Word.low p.amount⟩

/-- A row of the history as a query hands it back. -/
def readBackHistory (p : Stake.HistoryPoint) : Stake.HistoryPoint :=
  ⟨Word.readBack p.block, Word.low p.time, Word.low p.amount⟩

/-- An interval as a query hands it back. -/
def readBackInterval (i : Uptime.Interval) : Uptime.Interval :=
  ⟨i.owner, Word.readBack i.first, Word.readBack i.last, Word.readBack i.votes⟩

/-! ## Blocks -/

/-- The highest consensus block. -/
def highestConsensusBlock : Action Database (Option ConsensusBlock) :=
  query fun t =>
    (leading? (fun a b => notAfter b.height a.height) t.consensusBlocks).map fun b =>
      { b with height := Word.readBack b.height, time := Word.low b.time }

/-- The `n` highest execution blocks, the highest first. -/
def highestExecutionBlocks (n : Nat) : Action Database (List ExecutionBlock) :=
  query fun t =>
    ((t.executionBlocks.mergeSort fun a b => notAfter b.height a.height).take n).map fun b =>
      { b with
        height := Word.readBack b.height
        gasUsed := Word.readBack b.gasUsed
        gasLimit := Word.readBack b.gasLimit
        time := Word.low b.time }

/-- The times of the blocks between two heights that are among those asked for. -/
def timesBetween (low high : Nat) (heights : List Nat) (blocks : List ConsensusBlock) : Stake.Times :=
  let rows := (blocks.filter fun b => notAfter low b.height && notAfter b.height high).mergeSort fun a b =>
    notAfter a.height b.height
  rows.foldl (fun times b =>
    let height := Word.readBack b.height
    if heights.contains height then Keyed.put Prod.fst (height, Word.low b.time) times else times) []

/-- The times of stored consensus blocks. Heights without a block are left out. -/
def blockTimes (heights : List Nat) : Action Database Stake.Times :=
  match heights.min?, heights.max? with
  | some low, some high => query fun t => timesBetween low high heights t.consensusBlocks
  | _, _ => pure []

/-! ## Stake -/

/-- What the time of a missing block is read as. -/
def noTime : Int := -1

/-- An event with the time of its block; a time that reads as `noTime` counts as missing. -/
def changeOf (blocks : List ConsensusBlock) (e : Staking.ConsensusEvent) : Stake.Change :=
  let time := Word.low (((Keyed.get? ConsensusBlock.height e.block blocks).map (·.time)).getD noTime)
  { block := Word.readBack e.block
    time := if time = noTime then none else some time
    kind := e.kind
    amount := e.amount }

/-- Whether one event comes no later than another. -/
def eventInOrder (a b : Staking.ConsensusEvent) : Bool :=
  before a.block b.block || (Word.signed a.block == Word.signed b.block && notAfter a.index b.index)

/-- The successful stakes and unstakes from one height to another, in order, with their block times. -/
def stakeChanges (first last : Nat) : Action Database (List Stake.Change) :=
  query fun t =>
    let wanted := t.consensusEvents.filter fun e =>
      notAfter first e.block && notAfter e.block last && e.succeeded && (e.kind = .stake || e.kind = .unstake)
    (wanted.mergeSort eventInOrder).map (changeOf t.consensusBlocks)

/-- Whether one point is earlier than another, or as early. -/
def pointInOrder (a b : Stake.Point) : Bool := decide (a.time ≤ b.time)

theorem pointInOrder_trans (a b c : Stake.Point) (hab : pointInOrder a b) (hbc : pointInOrder b c) :
    pointInOrder a c := by
  simp only [pointInOrder, decide_eq_true_eq] at *
  omega

theorem pointInOrder_total (a b : Stake.Point) : (pointInOrder a b || pointInOrder b a) = true := by
  simp only [pointInOrder, Bool.or_eq_true, decide_eq_true_eq]
  omega

/-- The first point from the latest on is one that no other is later than. -/
theorem mem_of_latest? {points : List Stake.Point} {p : Stake.Point}
    (h : leading? (fun a b => pointInOrder b a) points = some p) :
    p ∈ points ∧ ∀ p' ∈ points, p'.time ≤ p.time := by
  obtain ⟨hp, hlast⟩ := mem_of_leading?
    (fun a b c (hab : pointInOrder b a) (hbc : pointInOrder c b) => pointInOrder_trans c b a hbc hab)
    (fun a b => pointInOrder_total b a) h
  exact ⟨hp, fun p' hp' => of_decide_eq_true (hlast p' hp')⟩

theorem latest?_eq {points : List Stake.Point} {p : Stake.Point} (hp : p ∈ points)
    (hlast : ∀ p' ∈ points, p.time ≤ p'.time → p' = p) :
    leading? (fun a b => pointInOrder b a) points = some p := by
  refine leading?_eq ?_ ?_ hp fun p' hp' hle => hlast p' hp' (of_decide_eq_true hle)
  · exact fun a b c hab hbc => pointInOrder_trans c b a hbc hab
  · exact fun a b => pointInOrder_total b a

/-- The latest point of the running total. -/
def latestTotal : Action Database (Option Stake.Point) :=
  query fun t => (leading? (fun a b => pointInOrder b a) t.totals).map readBackPoint

/-- The row of the history with the highest block. -/
def latestHistory : Action Database (Option Stake.HistoryPoint) :=
  query fun t => (leading? (fun a b => notAfter b.block a.block) t.history).map readBackHistory

/-- Every point of the running total, the oldest first. -/
def allTotals : Action Database (List Stake.Point) :=
  query fun t => (t.totals.mergeSort pointInOrder).map readBackPoint

/-- The points after a moment, the oldest first. -/
def totalsAfter (moment : Int) : Action Database (List Stake.Point) :=
  query fun t => ((t.totals.filter fun p => moment < p.time).mergeSort pointInOrder).map readBackPoint

/-- The last point at or before a moment. -/
def totalAt (moment : Int) : Action Database (Option Stake.Point) :=
  query fun t =>
    (leading? (fun a b => pointInOrder b a) (t.totals.filter fun p => p.time ≤ moment)).map readBackPoint

/-- How far back a series goes. -/
inductive Interval
  | oneDay
  | sevenDays
  | thirtyDays
  | all
  deriving DecidableEq, Repr, Inhabited

namespace Interval

/-- The name of an interval. -/
def name : Interval → String
  | oneDay => "OneDay"
  | sevenDays => "SevenDays"
  | thirtyDays => "ThirtyDays"
  | all => "All"

/-- The length of an interval in seconds; none for the whole series. -/
def seconds : Interval → Option Int
  | oneDay => some 86400
  | sevenDays => some (7 * 86400)
  | thirtyDays => some (30 * 86400)
  | all => none

/-- Reads the short name of an interval. -/
def parse (text : String) : Except Fault Interval :=
  if text = "1d" then .ok oneDay
  else if text = "7d" then .ok sevenDays
  else if text = "30d" then .ok thirtyDays
  else if text = "all" then .ok all
  else .error (.decode (.interval text))

end Interval

/-- The points of an interval that ends at a moment, after the point in force at its start. -/
def totalSeries (interval : Interval) (now : Int) : Action Database (List Stake.Point) :=
  match interval.seconds with
  | none => allTotals
  | some window =>
    let start := now - window
    if Word.fits start then do
      let leading ← totalAt start
      let rest ← totalsAfter start
      pure (leading.toList ++ rest)
    else Action.fail .crash

/-! ## Operations -/

/-- A log of the execution chain with the consensus event that carried it out. -/
structure Operation where
  txHash : String
  block : Nat
  kind : Staking.Kind
  address : String
  source : String
  target : String
  targetAddress : String
  succeeded : Bool
  errorCode : String
  amount : String
  deriving DecidableEq, Repr, Inhabited

/-- A page of operations with the number of all. -/
structure Page where
  total : Nat
  items : List Operation
  deriving DecidableEq, Repr, Inhabited

/-- Joins a log to a consensus event. -/
def Operation.ofEvents (el : Staking.ExecutionEvent) (cl : Staking.ConsensusEvent) : Operation where
  txHash := el.txHash
  block := Word.readBack el.block
  kind := el.kind
  address := el.address
  source := el.source
  target := el.target
  targetAddress := el.targetAddress
  succeeded := cl.succeeded
  errorCode := cl.errorCode
  amount := cl.amount

/-- Whether one log is newer than another, or of the same place. -/
def newestFirst (a b : Staking.ExecutionEvent × Staking.ConsensusEvent) : Bool :=
  before b.1.block a.1.block || (Word.signed b.1.block == Word.signed a.1.block && notAfter b.1.index a.1.index)

/-- The logs of an address with the events of their transactions, the newest first. -/
def joinedOperations (t : Tables) (address : String) : List (Staking.ExecutionEvent × Staking.ConsensusEvent) :=
  let pairs := (t.executionEvents.filter fun el => el.address = address).flatMap fun el =>
    (t.consensusEvents.filter fun cl => cl.txHash = el.txHash).map fun cl => (el, cl)
  pairs.mergeSort newestFirst

/-- The largest page. -/
def largestPage : Nat := 100

/-- A page of the operations of an address. Pages count from one; their size is at least one. -/
def operations (address : String) (page size : Nat) : Action Database Page := do
  let address := Text.Case.lower address
  let size := max 1 (min size largestPage)
  let skipped := (max page 1 - 1) * size
  let total ← query fun t => Word.readBack (joinedOperations t address).length
  let items ← query fun t =>
    (((joinedOperations t address).drop skipped).take size).map fun p => Operation.ofEvents p.1 p.2
  pure ⟨total, items⟩

/-! ## Rewards and validators -/

/-- The rewards of an address. -/
def reward (address : String) : Action Database (Option Reward.Total) := do
  let row ← query fun t => Keyed.get? RewardRow.address (Text.Case.lower address) t.rewards
  match row with
  | none => pure none
  | some r => do
    let amount ← Action.ofExcept (readReward r.amount)
    pure (some ⟨r.address, amount, Word.readBack r.height⟩)

/-- The votes of each validator in the window, in order of address; of all validators, or of those named. -/
def voteCounts (validators : List String) : Action Database (List (String × Nat)) :=
  query fun t =>
    let wanted := validators.map Text.Case.lower
    let owners := (t.votes.map (·.owner)).eraseDups.filter fun o => wanted.isEmpty || wanted.contains o
    (owners.mergeSort fun a b => decide (a ≤ b)).map fun o =>
      (o, Word.readBack (t.votes.filter fun v => v.owner = o).length)

/-- The active interval of a validator. -/
def interval (address : String) : Action Database (Option Uptime.Interval) :=
  query fun t =>
    (Keyed.get? Uptime.Interval.owner (Text.Case.lower address) t.intervals).map readBackInterval

/-- The active intervals of all validators, in order of address. -/
def intervals : Action Database (List Uptime.Interval) :=
  query fun t => (t.intervals.mergeSort Uptime.Tracker.byOwner).map readBackInterval

end StakeTrail.Store
