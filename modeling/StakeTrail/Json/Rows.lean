import StakeTrail.Chain.Block
import StakeTrail.Contract.Log
import StakeTrail.Json.Reader
import StakeTrail.Stake.Ledger
import StakeTrail.Staking.Classify
import StakeTrail.Uptime.Vote

/-!
# Rows as JSON records

The record form of chain data and of table rows. Every type has a reader `ofJson?` and a writer `toJson`.
Fields are named as table columns are; a list of withdrawals or attributes and the mark of a removed log may
be left out, but are not null.
-/

namespace StakeTrail

open Json

/-- Reads a withdrawal. -/
def Withdrawal.ofJson? (j : Json) : Option Withdrawal := do
  match ← j.fields? ["address", "amount"] with
  | [address, amount] => some { address := ← need string? address, amount := ← need word? amount }
  | _ => none

/-- Writes a withdrawal. -/
def Withdrawal.toJson (w : Withdrawal) : Json := .obj [("address", .str w.address), ("amount", .nat w.amount)]

/-- Reads a consensus block. -/
def ConsensusBlock.ofJson? (j : Json) : Option ConsensusBlock := do
  match ← j.fields? ["height", "hash", "proposer", "time"] with
  | [height, hash, proposer, time] =>
    some {
      height := ← need word? height
      hash := ← need string? hash
      proposer := ← need string? proposer
      time := ← need signed? time }
  | _ => none

/-- Writes a consensus block. -/
def ConsensusBlock.toJson (b : ConsensusBlock) : Json :=
  .obj [("height", .nat b.height), ("hash", .str b.hash), ("proposer", .str b.proposer), ("time", .int b.time)]

/-- Reads an execution block. -/
def ExecutionBlock.ofJson? (j : Json) : Option ExecutionBlock := do
  match ← j.fields? ["height", "hash", "gas_used", "gas_limit", "time", "withdrawals"] with
  | [height, hash, gasUsed, gasLimit, time, withdrawals] =>
    some {
      height := ← need word? height
      hash := ← need string? hash
      gasUsed := ← need word? gasUsed
      gasLimit := ← need word? gasLimit
      time := ← need signed? time
      withdrawals := ← fill [] (list? Withdrawal.ofJson?) withdrawals }
  | _ => none

/-- Writes an execution block. -/
def ExecutionBlock.toJson (b : ExecutionBlock) : Json :=
  .obj [
    ("height", .nat b.height), ("hash", .str b.hash), ("gas_used", .nat b.gasUsed),
    ("gas_limit", .nat b.gasLimit), ("time", .int b.time), ("withdrawals", .list Withdrawal.toJson b.withdrawals)]

/-- Reads an attribute. -/
def Attribute.ofJson? (j : Json) : Option Attribute := do
  match ← j.fields? ["key", "value"] with
  | [key, value] => some { key := ← need string? key, value := ← need string? value }
  | _ => none

/-- Writes an attribute. -/
def Attribute.toJson (a : Attribute) : Json := .obj [("key", .str a.key), ("value", .str a.value)]

/-- Reads an event of a consensus block. -/
def EventRecord.ofJson? (j : Json) : Option EventRecord := do
  match ← j.fields? ["type", "attributes"] with
  | [kind, attributes] =>
    some { kind := ← need string? kind, attributes := ← fill [] (list? Attribute.ofJson?) attributes }
  | _ => none

/-- Writes an event of a consensus block. -/
def EventRecord.toJson (e : EventRecord) : Json :=
  .obj [("type", .str e.kind), ("attributes", .list Attribute.toJson e.attributes)]

/-- Reads a log. -/
def LogRecord.ofJson? (j : Json) : Option LogRecord := do
  match ← j.fields? ["address", "topics", "data", "block_number", "tx_hash", "log_index", "removed"] with
  | [address, topics, data, block, txHash, index, removed] =>
    some {
      address := ← need string? address
      topics := ← need (list? string?) topics
      data := ← need string? data
      block := ← need word? block
      txHash := ← need string? txHash
      index := ← need word? index
      removed := ← fill false bool? removed }
  | _ => none

/-- Writes a log. -/
def LogRecord.toJson (l : LogRecord) : Json :=
  .obj [
    ("address", .str l.address), ("topics", .list Json.str l.topics), ("data", .str l.data),
    ("block_number", .nat l.block), ("tx_hash", .str l.txHash), ("log_index", .nat l.index),
    ("removed", .bool l.removed)]

namespace Staking

/-- Reads the name of a kind. -/
def Kind.ofJson? (j : Json) : Option Kind := j.string?.bind Kind.ofName?

/-- Reads a classified event. -/
def ConsensusEvent.ofJson? (j : Json) : Option ConsensusEvent := do
  match ← j.fields? ["block_height", "event_index", "el_tx_hash", "event_type", "status_ok", "error_code",
    "amount"] with
  | [block, index, txHash, kind, succeeded, errorCode, amount] =>
    some {
      block := ← need word? block
      index := ← need halfWord? index
      txHash := ← need string? txHash
      kind := ← need Kind.ofJson? kind
      succeeded := ← need bool? succeeded
      errorCode := ← need string? errorCode
      amount := ← need string? amount }
  | _ => none

/-- Writes a classified event. -/
def ConsensusEvent.toJson (e : ConsensusEvent) : Json :=
  .obj [
    ("block_height", .nat e.block), ("event_index", .nat e.index), ("el_tx_hash", .str e.txHash),
    ("event_type", .str e.kind.name), ("status_ok", .bool e.succeeded), ("error_code", .str e.errorCode),
    ("amount", .str e.amount)]

/-- Reads a decoded log. -/
def ExecutionEvent.ofJson? (j : Json) : Option ExecutionEvent := do
  match ← j.fields? ["tx_hash", "log_index", "block_height", "event_type", "address", "src_validator",
    "dst_validator", "dst_address"] with
  | [txHash, index, block, kind, address, source, target, targetAddress] =>
    some {
      txHash := ← need string? txHash
      index := ← need word? index
      block := ← need word? block
      kind := ← need Kind.ofJson? kind
      address := ← need string? address
      source := ← need string? source
      target := ← need string? target
      targetAddress := ← need string? targetAddress }
  | _ => none

/-- Writes a decoded log. -/
def ExecutionEvent.toJson (e : ExecutionEvent) : Json :=
  .obj [
    ("tx_hash", .str e.txHash), ("log_index", .nat e.index), ("block_height", .nat e.block),
    ("event_type", .str e.kind.name), ("address", .str e.address), ("src_validator", .str e.source),
    ("dst_validator", .str e.target), ("dst_address", .str e.targetAddress)]

end Staking

namespace Stake

/-- Reads a point of the running total. -/
def Point.ofJson? (j : Json) : Option Point := do
  match ← j.fields? ["updated_at", "amount"] with
  | [time, amount] => some { time := ← need signed? time, amount := ← need signed? amount }
  | _ => none

/-- Writes a point of the running total. -/
def Point.toJson (p : Point) : Json := .obj [("updated_at", .int p.time), ("amount", .int p.amount)]

/-- Reads a row of the history. -/
def HistoryPoint.ofJson? (j : Json) : Option HistoryPoint := do
  match ← j.fields? ["block", "time", "amount"] with
  | [block, time, amount] =>
    some { block := ← need word? block, time := ← need signed? time, amount := ← need signed? amount }
  | _ => none

/-- Writes a row of the history. -/
def HistoryPoint.toJson (p : HistoryPoint) : Json :=
  .obj [("block", .nat p.block), ("time", .int p.time), ("amount", .int p.amount)]

end Stake

namespace Uptime

/-- Reads an interval. -/
def Interval.ofJson? (j : Json) : Option Interval := do
  match ← j.fields? ["evm_address", "active_from", "active_to", "vote_count"] with
  | [owner, first, last, votes] =>
    some {
      owner := ← need string? owner
      first := ← need word? first
      last := ← need word? last
      votes := ← need word? votes }
  | _ => none

/-- Writes an interval. -/
def Interval.toJson (i : Interval) : Json :=
  .obj [
    ("evm_address", .str i.owner), ("active_from", .nat i.first), ("active_to", .nat i.last),
    ("vote_count", .nat i.votes)]

/-- Reads a vote. -/
def Vote.ofJson? (j : Json) : Option Vote := do
  match ← j.fields? ["validator", "block_height"] with
  | [owner, block] => some { owner := ← need string? owner, block := ← need word? block }
  | _ => none

/-- Writes a vote. -/
def Vote.toJson (v : Vote) : Json := .obj [("validator", .str v.owner), ("block_height", .nat v.block)]

end Uptime

end StakeTrail
