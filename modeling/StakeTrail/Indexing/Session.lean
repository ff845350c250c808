import StakeTrail.Cache
import StakeTrail.Indexing.Loop
import StakeTrail.Stake.Ledger
import StakeTrail.Store.Query

/-!
# The state of a running session

The database outlives a session; the cache, the counts, the running total and the mark of cancellation are
its own. `Session.onStore` and `Session.onCache` run an action on one part, and `Session.loop` is the loop of
the indexers of a session.
-/

namespace StakeTrail.Indexing

/-- What the indexers of a session work on; the cache keeps its entries in `γ`. -/
structure Session (γ : Type) where
  database : Store.Database
  cache : γ
  /-- The running total stake. -/
  ledger : Stake.Ledger
  counts : List Counter := []
  cancelled : Bool := false

/-- What the indexers of a session share. -/
structure Settings where
  genesis : Stake.Genesis := Stake.Genesis.standard
  /-- The length of the window of votes. -/
  voteWindow : Nat := Uptime.standardWindow
  /-- The number of pending addresses at which rewards are committed. -/
  flushSize : Nat := Reward.standardFlushSize
  deriving DecidableEq, Repr, Inhabited

namespace Session

variable {γ α : Type}

/-- Runs an action on the database. -/
def onStore (x : Action Store.Database α) : Action (Session γ) α :=
  x.within (·.database) fun database p => { p with database }

/-- Runs an action on the cache. -/
def onCache (x : Action γ α) : Action (Session γ) α := x.within (·.cache) fun cache p => { p with cache }

/-- The checkpoints of a session are those in its database. -/
def checkpoints : Checkpoints (Session γ) :=
  Store.checkpoints.within (·.database) fun database p => { p with database }

/-- The loop of the indexers of a session. -/
def loop (schedule : Schedule) : Loop (Session γ) where
  checkpoints := checkpoints
  schedule := schedule
  cancelled := (·.cancelled)
  count c p := { p with counts := c :: p.counts }

/-- Every count: those of the loops, and one for each refused statement. -/
def allCounts (p : Session γ) : List Counter :=
  p.counts ++ p.database.refused.map fun trouble => .storageError trouble.label

/-- A session after a restart: database and cache stay, the total starts over. -/
def restarted (settings : Settings) (p : Session γ) : Session γ :=
  { p with ledger := ⟨settings.genesis.amount⟩, cancelled := false }

end Session

end StakeTrail.Indexing
