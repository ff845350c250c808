import StakeTrail.Config.Basic
import StakeTrail.Indexing.Catalog
import StakeTrail.Text.Moment

/-!
# Configurations in use

The environment may override two settings, so that secrets stay out of the file, and a configuration has to
meet some demands before it is used; `Config.check` reports the first one that it fails. `Config.prepare` reads,
overrides and checks. The other functions are what the rest of the program takes from a configuration.
-/

namespace StakeTrail.Config

/-- The variable that holds the address of the database. -/
def databaseVariable : String := "STAKEINDEX_DATABASE_URL"

/-- The variable that holds the address of the cache server. -/
def cacheVariable : String := "STAKEINDEX_REDIS_URL"

/-- A configuration with what the environment overrides; an empty variable overrides nothing. -/
def override (env : String → Option String) (c : Config) : Config :=
  let given? (name : String) := (env name).filter fun value => !value.isEmpty
  { c with
    storage := { c.storage with url := (given? databaseVariable).getD c.storage.url }
    cacheUrl := (given? cacheVariable).or c.cacheUrl }

/-- Where the series of the total stake start. -/
def genesis (c : Config) : Except Fault Stake.Genesis :=
  match Text.Moment.parse? c.start.time with
  | some time => .ok ⟨c.start.amount, time, c.start.block⟩
  | none => .error (.config s!"genesis.time '{c.start.time}': {foreign}")

/-- The demands on single settings in the order in which they are checked: whether they are met, and the
wording. -/
def demands (c : Config) : List (Bool × String) := [
  (!c.nodes.consensusUrl.isEmpty, "chain.cometbft_rpc must not be empty"),
  (!c.nodes.executionUrl.isEmpty, "chain.evm_rpc must not be empty"),
  (!c.storage.url.isEmpty, "database.url must not be empty"),
  (c.work.schedule.batch != 0, "indexer.batch_size must be at least 1"),
  (c.work.voteWindow != 0, "indexer.vote_window must be at least 1"),
  (c.exporting.endpoint.isNone || c.exporting.interval != 0, "metrics.export_interval_ms must be at least 1"),
  (c.work.flushSize != 0, "indexer.reward_flush_size must be at least 1")]

/-- The first enabled indexer that there is not. -/
def unknown? (c : Config) : Option String :=
  c.work.enabled.find? fun name => !Indexing.catalogNames.contains name

/-- Whether a configuration can be used. -/
def check (c : Config) : Except Fault Unit := do
  match c.demands.find? fun demand => !demand.1 with
  | some (_, wording) => .error (.config wording)
  | none =>
    match c.unknown? with
    | some name => .error (.config s!"unknown indexer '{name}'")
    | none =>
      let _ ← c.genesis
      .ok ()

/-- Reads a settings file and makes the configuration ready for use. -/
def prepare (env : String → Option String) (text : String) : Except Fault Config := do
  let c := (← ofText text).override env
  c.check
  .ok c

/-- The fault of a settings file that cannot be read. -/
def unreadable (path why : String) : Fault := .config s!"read {path}: {why}"

/-- The names of the indexers to run, in the order of the catalog. -/
def enabledNames (c : Config) : List String :=
  if c.work.enabled.isEmpty then Indexing.catalogNames
  else Indexing.catalogNames.filter c.work.enabled.contains

/-- How often and after which pauses a request is sent again. -/
def policy (c : Config) : Rpc.Policy := { retries := c.nodes.retries }

/-- What the indexers share. -/
def settings (c : Config) : Except Fault Indexing.Settings := do
  .ok { genesis := ← c.genesis, voteWindow := c.work.voteWindow, flushSize := c.work.flushSize }

/-- The indexers to run. -/
def indexers {γ : Type} (c : Config) (consensus : ConsensusFeed) (execution : ExecutionFeed)
    (cache : Cache γ) : Except Fault (List (Indexing.Indexer (Indexing.Session γ))) := do
  let settings ← c.settings
  let names := c.enabledNames
  .ok ((Indexing.catalog consensus execution cache settings).filter fun ix => names.contains ix.name)

end StakeTrail.Config
