import StakeTrail.Json.Parser
import StakeTrail.Json.Printer
import StakeTrail.Json.Rows
import StakeTrail.Store.Tables

/-!
# Database files

A database file holds every table as a JSON record, and a table that is not in it is empty; so is every table of
an empty file. `Tables.archive` writes a file and `Tables.restore?` reads one.
-/

namespace StakeTrail.Store

open Json

/-- Reads a checkpoint. -/
def checkpointOfJson? (j : Json) : Option Checkpoint := do
  match ← j.fields? ["indexer", "block_height"] with
  | [indexer, height] => some { indexer := ← need string? indexer, height := ← need word? height }
  | _ => none

/-- Writes a checkpoint. -/
def checkpointToJson (c : Checkpoint) : Json :=
  .obj [("indexer", .str c.indexer), ("block_height", .nat c.height)]

/-- Reads a row of the rewards. -/
def RewardRow.ofJson? (j : Json) : Option RewardRow := do
  match ← j.fields? ["address", "amount", "last_update_height"] with
  | [address, amount, height] =>
    some {
      address := ← need string? address
      amount := ← need string? amount
      height := ← need word? height }
  | _ => none

/-- Writes a row of the rewards. -/
def RewardRow.toJson (r : RewardRow) : Json :=
  .obj [("address", .str r.address), ("amount", .str r.amount), ("last_update_height", .nat r.height)]

namespace Tables

/-- Writes every table. -/
def toJson (t : Tables) : Json :=
  .obj [
    ("index_points", .list checkpointToJson t.checkpoints),
    ("cl_blocks", .list ConsensusBlock.toJson t.consensusBlocks),
    ("el_blocks", .list ExecutionBlock.toJson t.executionBlocks),
    ("cl_staking_events", .list Staking.ConsensusEvent.toJson t.consensusEvents),
    ("el_staking_events", .list Staking.ExecutionEvent.toJson t.executionEvents),
    ("cl_total_stakes", .list Stake.Point.toJson t.totals),
    ("cl_total_stake_hists", .list Stake.HistoryPoint.toJson t.history),
    ("cl_validator_uptimes", .list Uptime.Interval.toJson t.intervals),
    ("cl_validator_votes", .list Uptime.Vote.toJson t.votes),
    ("el_rewards", .list RewardRow.toJson t.rewards)]

/-- Reads every table. -/
def ofJson? (j : Json) : Option Tables :=
  let table {α : Type} (name : String) (row? : Json → Option α) : Option (List α) :=
    fill [] (list? row?) (j.member? name)
  match j with
  | .obj _ => do
    some {
      checkpoints := ← table "index_points" checkpointOfJson?
      consensusBlocks := ← table "cl_blocks" ConsensusBlock.ofJson?
      executionBlocks := ← table "el_blocks" ExecutionBlock.ofJson?
      consensusEvents := ← table "cl_staking_events" Staking.ConsensusEvent.ofJson?
      executionEvents := ← table "el_staking_events" Staking.ExecutionEvent.ofJson?
      totals := ← table "cl_total_stakes" Stake.Point.ofJson?
      history := ← table "cl_total_stake_hists" Stake.HistoryPoint.ofJson?
      intervals := ← table "cl_validator_uptimes" Uptime.Interval.ofJson?
      votes := ← table "cl_validator_votes" Uptime.Vote.ofJson?
      rewards := ← table "el_rewards" RewardRow.ofJson? }
  | _ => none

/-- The text of a database file. -/
def archive (t : Tables) : String := t.toJson.render

/-- Reads a database file. -/
def restore? (text : String) : Option Tables :=
  if text.isEmpty then some {} else (Json.parse text).bind ofJson?

end Tables

end StakeTrail.Store
