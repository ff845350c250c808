import StakeTrail.Contract.Notice
import StakeTrail.Indexing.Schedule
import StakeTrail.Logging
import StakeTrail.Reward
import StakeTrail.Rpc.Retry
import StakeTrail.Stake.Ledger
import StakeTrail.Toml.Document
import StakeTrail.Uptime.Vote

/-!
# The configuration

What an operator may set, in seven sections, all of which may be left out in whole or in part. A section is a
table, or an array of its settings in order; settings that are not known are ignored. `Config.ofText` reads a
settings file and `Config.toJson` shows a configuration as a record.
-/

namespace StakeTrail

namespace Config

/-- The nodes of both chains. -/
structure Nodes where
  consensusUrl : String := "http://localhost:26657"
  executionUrl : String := "http://localhost:8545"
  /-- The address of the staking contract. -/
  contract : String := Contract.predeployed
  /-- Milliseconds that a request may take. -/
  timeout : Nat := 10000
  /-- How often a request that failed is sent again. -/
  retries : Nat := 3
  deriving DecidableEq, Repr, Inhabited

/-- The database. -/
structure Storage where
  url : String := "sqlite://stakeindex.db?mode=rwc"
  connections : Nat := 10
  deriving DecidableEq, Repr, Inhabited

/-- The indexers and their work. -/
structure Work where
  schedule : Indexing.Schedule := {}
  flushSize : Nat := Reward.standardFlushSize
  voteWindow : Nat := Uptime.standardWindow
  /-- The indexers to run; none stands for all. -/
  enabled : List String := []
  deriving DecidableEq, Repr, Inhabited

/-- Where the series of the total stake start. -/
structure Start where
  amount : Int := Stake.Genesis.standard.amount
  /-- The text of a moment. -/
  time : String := "2025-01-19T15:00:00Z"
  block : Nat := Stake.Genesis.standard.block
  deriving DecidableEq, Repr, Inhabited

/-- The export of counters. -/
structure Export where
  /-- The collector; without one nothing is exported. -/
  endpoint : Option String := none
  /-- Milliseconds between two exports. -/
  interval : Nat := 60000
  deriving DecidableEq, Repr, Inhabited

end Config

/-- Everything that an operator may set. -/
structure Config where
  nodes : Config.Nodes := {}
  storage : Config.Storage := {}
  /-- A cache server; without one the cache is kept in memory. -/
  cacheUrl : Option String := none
  work : Config.Work := {}
  start : Config.Start := {}
  log : Logging := {}
  exporting : Config.Export := {}
  deriving DecidableEq, Repr, Inhabited

namespace Config

open Json

/-! ## Reading -/

/-- An array of settings without what comes after the first `n`. -/
def clipped (n : Nat) : Json → Json
  | .arr items => .arr (items.take n)
  | j => j

/-- The settings of a section. -/
def section? (names : List String) (j : Json) : Option (List (Option Json)) :=
  (clipped names.length j).fields? names

/-- Reads the section of the nodes. -/
def Nodes.ofJson? (j : Json) : Option Nodes := do
  match ← section? ["cometbft_rpc", "evm_rpc", "staking_contract", "rpc_timeout_ms", "rpc_max_retries"] j with
  | [consensusUrl, executionUrl, contract, timeout, retries] =>
    let standard : Nodes := {}
    some {
      consensusUrl := ← fill standard.consensusUrl string? consensusUrl
      executionUrl := ← fill standard.executionUrl string? executionUrl
      contract := ← fill standard.contract string? contract
      timeout := ← fill standard.timeout word? timeout
      retries := ← fill standard.retries halfWord? retries }
  | _ => none

/-- Reads the section of the database. -/
def Storage.ofJson? (j : Json) : Option Storage := do
  match ← section? ["url", "max_connections"] j with
  | [url, connections] =>
    let standard : Storage := {}
    some {
      url := ← fill standard.url string? url
      connections := ← fill standard.connections halfWord? connections }
  | _ => none

/-- Reads the section of the cache. -/
def cacheUrl? (j : Json) : Option (Option String) := do
  match ← section? ["redis_url"] j with
  | [url] => allow string? url
  | _ => none

/-- Reads the section of the indexers. -/
def Work.ofJson? (j : Json) : Option Work := do
  match ← section? ["poll_interval_ms", "lag", "batch_size", "reward_flush_size", "vote_window", "enabled"] j with
  | [interval, lag, batch, flushSize, voteWindow, enabled] =>
    let standard : Work := {}
    some {
      schedule := {
        interval := ← fill standard.schedule.interval word? interval
        lag := ← fill standard.schedule.lag word? lag
        batch := ← fill standard.schedule.batch word? batch }
      flushSize := ← fill standard.flushSize word? flushSize
      voteWindow := ← fill standard.voteWindow word? voteWindow
      enabled := ← fill standard.enabled (list? string?) enabled }
  | _ => none

/-- Reads the section of the start. -/
def Start.ofJson? (j : Json) : Option Start := do
  match ← section? ["stake_amount", "time", "block"] j with
  | [amount, time, block] =>
    let standard : Start := {}
    some {
      amount := ← fill standard.amount signed? amount
      time := ← fill standard.time string? time
      block := ← fill standard.block word? block }
  | _ => none

/-- Reads the section of the log. -/
def logging? (j : Json) : Option Logging := Logging.ofJson? (clipped 3 j)

/-- Reads the section of the export. -/
def Export.ofJson? (j : Json) : Option Export := do
  match ← section? ["otlp_endpoint", "export_interval_ms"] j with
  | [endpoint, interval] =>
    let standard : Export := {}
    some {
      endpoint := ← allow string? endpoint
      interval := ← fill standard.interval word? interval }
  | _ => none

/-- Reads a configuration. -/
def ofJson? (j : Json) : Option Config := do
  match ← section? ["chain", "database", "cache", "indexer", "genesis", "log", "metrics"] j with
  | [nodes, storage, cache, work, start, log, exporting] =>
    some {
      nodes := ← fill {} Nodes.ofJson? nodes
      storage := ← fill {} Storage.ofJson? storage
      cacheUrl := ← fill none cacheUrl? cache
      work := ← fill {} Work.ofJson? work
      start := ← fill {} Start.ofJson? start
      log := ← fill {} logging? log
      exporting := ← fill {} Export.ofJson? exporting }
  | _ => none

/-- Reads a settings file. -/
def ofText (text : String) : Except Fault Config :=
  match (Toml.parse text).bind ofJson? with
  | some c => .ok c
  | none => .error (.config foreign)

/-! ## Showing -/

/-- Shows a configuration. -/
def toJson (c : Config) : Json :=
  .obj [
    ("chain", .obj [
      ("cometbft_rpc", .str c.nodes.consensusUrl), ("evm_rpc", .str c.nodes.executionUrl),
      ("staking_contract", .str c.nodes.contract), ("rpc_timeout_ms", .nat c.nodes.timeout),
      ("rpc_max_retries", .nat c.nodes.retries)]),
    ("database", .obj [("url", .str c.storage.url), ("max_connections", .nat c.storage.connections)]),
    ("cache", .obj [("redis_url", Json.opt Json.str c.cacheUrl)]),
    ("indexer", .obj [
      ("poll_interval_ms", .nat c.work.schedule.interval), ("lag", .nat c.work.schedule.lag),
      ("batch_size", .nat c.work.schedule.batch), ("reward_flush_size", .nat c.work.flushSize),
      ("vote_window", .nat c.work.voteWindow), ("enabled", .list Json.str c.work.enabled)]),
    ("genesis", .obj [
      ("stake_amount", .int c.start.amount), ("time", .str c.start.time), ("block", .nat c.start.block)]),
    ("log", .obj [
      ("level", .str c.log.level), ("json", .bool c.log.json),
      ("components", .obj (c.log.components.map fun (name, level) => (name, Json.str level)))]),
    ("metrics", .obj [
      ("otlp_endpoint", Json.opt Json.str c.exporting.endpoint),
      ("export_interval_ms", .nat c.exporting.interval)])]

end Config

end StakeTrail
