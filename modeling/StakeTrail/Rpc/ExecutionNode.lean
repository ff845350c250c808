import StakeTrail.Chain.Feed
import StakeTrail.Contract.Notice
import StakeTrail.Rpc.Line
import StakeTrail.Rpc.Quantity

/-!
# Execution nodes

The calls to an execution node. Parameters go by position and numbers are quantities. Logs are asked for by the
address of the staking contract and the first topics of its events.
-/

namespace StakeTrail.Rpc.ExecutionNode

open Json

/-- Asks for the latest height. -/
def head : Action Line Nat := do
  let raw ← Line.ask "eth_blockNumber" (.arr []) string?
  Action.ofExcept (readQuantity raw)

/-- Asks for a block without its transactions; a node that does not know it answers with null. -/
def block (height : Nat) : Action Line ExecutionBlock := do
  let found ← Line.ask "eth_getBlockByNumber" (.arr [.str (quantity height), .bool false]) (opt? BlockReply.ofJson?)
  match found with
  | some w => Action.ofExcept w.toBlock
  | none => Action.fail (.rpc s!"block {height} not found")

/-- The first topics of the events of the contract, as text. -/
def topics : List String := Contract.Topic.all.map fun t => Address.ofBytes t.hash

/-- The logs that are asked for. -/
def filter (contract : String) (first last : Nat) : Json :=
  .arr [.obj [
    ("fromBlock", .str (quantity first)), ("toBlock", .str (quantity last)),
    ("address", .str (Address.normalForm contract)), ("topics", .arr [.list Json.str topics])]]

/-- Asks for the logs of the contract from one height to another; an empty range needs no call. -/
def logs (contract : String) (first last : Nat) : Action Line (List LogRecord) :=
  if last < first then pure []
  else do
    let found ← Line.ask "eth_getLogs" (filter contract first last) (list? LogReply.ofJson?)
    Action.ofExcept (found.mapM LogReply.toLog)

/-- What the node at the end of a line says at this moment. -/
def feed (contract : String) (line : Line) : ExecutionFeed where
  head := line.now head
  block height := line.now (block height)
  logs first last := line.now (logs contract first last)

end StakeTrail.Rpc.ExecutionNode
