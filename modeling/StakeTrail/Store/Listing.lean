import StakeTrail.Json.Basic
import StakeTrail.Store.Tables

/-!
# Listings of tables

The whole content of a table by its name: rows in order of the primary key, columns in order of the schema,
integers as signed words. The time at which a checkpoint moved is not kept.
-/

namespace StakeTrail.Store

/-- A word in a listing. -/
def column (n : Nat) : Json := .int (Word.signed n)

/-- The order of two pairs by their first and then their second members. -/
def pairNotAfter {α β : Type} (firstBefore : α → α → Bool) (secondNotAfter : β → β → Bool) (a b : α × β) : Bool :=
  firstBefore a.1 b.1 || (!firstBefore b.1 a.1 && secondNotAfter a.2 b.2)

/-- Whether one text comes before another. -/
def textBefore (a b : String) : Bool := decide (a < b)

/-- The content of a table. -/
def Tables.listing? (t : Tables) (name : String) : Option (List (List Json)) :=
  match name with
  | "index_points" =>
    some ((t.checkpoints.mergeSort fun a b => !textBefore b.indexer a.indexer).map fun c =>
      [.str c.indexer, column c.height])
  | "cl_blocks" =>
    some ((t.consensusBlocks.mergeSort fun a b => notAfter a.height b.height).map fun b =>
      [column b.height, .str b.hash, .str b.proposer, .int b.time])
  | "el_blocks" =>
    some ((t.executionBlocks.mergeSort fun a b => notAfter a.height b.height).map fun b =>
      [column b.height, .str b.hash, column b.gasUsed, column b.gasLimit, .int b.time])
  | "cl_staking_events" =>
    let le (a b : Staking.ConsensusEvent) := pairNotAfter before notAfter (consensusEventKey a) (consensusEventKey b)
    some ((t.consensusEvents.mergeSort le).map fun e =>
      [column e.block, column e.index, .str e.txHash, .str e.kind.name, .int (if e.succeeded then 1 else 0),
        .str e.errorCode, .str e.amount])
  | "el_staking_events" =>
    let le (a b : Staking.ExecutionEvent) :=
      pairNotAfter textBefore notAfter (executionEventKey a) (executionEventKey b)
    some ((t.executionEvents.mergeSort le).map fun e =>
      [.str e.txHash, column e.index, column e.block, .str e.kind.name, .str e.address, .str e.source,
        .str e.target, .str e.targetAddress])
  | "cl_total_stakes" =>
    some ((t.totals.mergeSort fun a b => decide (a.time ≤ b.time)).map fun p => [.int p.time, .int p.amount])
  | "cl_total_stake_hists" =>
    some ((t.history.mergeSort fun a b => notAfter a.block b.block).map fun p =>
      [column p.block, .int p.time, .int p.amount])
  | "cl_validator_uptimes" =>
    some ((t.intervals.mergeSort fun a b => !textBefore b.owner a.owner).map fun i =>
      [.str i.owner, column i.first, column i.last, column i.votes])
  | "cl_validator_votes" =>
    let le (a b : Uptime.Vote) := pairNotAfter textBefore notAfter (voteKey a) (voteKey b)
    some ((t.votes.mergeSort le).map fun v => [.str v.owner, column v.block])
  | "el_rewards" =>
    some ((t.rewards.mergeSort fun a b => !textBefore b.address a.address).map fun r =>
      [.str r.address, .str r.amount, column r.height])
  | _ => none

end StakeTrail.Store
