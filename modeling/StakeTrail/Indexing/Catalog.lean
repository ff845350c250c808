import StakeTrail.Indexing.Consensus
import StakeTrail.Indexing.Execution

/-!
# All indexers

The nine indexers of the program in the order in which they are started, by name.
-/

namespace StakeTrail.Indexing

variable {γ : Type}

/-- Every indexer over two feeds and a cache. -/
def catalog (consensus : ConsensusFeed) (execution : ExecutionFeed) (cache : Cache γ)
    (settings : Settings) : List (Indexer (Session γ)) := [
  Consensus.blocks consensus,
  Consensus.events consensus,
  Consensus.total consensus settings.genesis,
  Consensus.history settings.genesis,
  Consensus.uptimes consensus cache,
  Consensus.votes consensus cache settings.voteWindow,
  Execution.blocks execution,
  Execution.events execution,
  Execution.rewards execution cache settings.flushSize]

/-- The names of the indexers. -/
def catalogNames : List String := [
  Consensus.blocksName, Consensus.eventsName, Consensus.totalName, Consensus.historyName, Consensus.uptimeName,
  Consensus.voteName, Execution.blocksName, Execution.eventsName, Execution.rewardName]

/-- The indexer with a name. -/
def named? (name : String) (indexers : List (Indexer (Session γ))) : Option (Indexer (Session γ)) :=
  indexers.find? fun ix => ix.name == name

end StakeTrail.Indexing
