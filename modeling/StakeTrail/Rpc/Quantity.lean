import StakeTrail.Address
import StakeTrail.Chain.Block
import StakeTrail.Chain.Event
import StakeTrail.Json.Reader

/-!
# Execution data on the wire

An execution node writes numbers as quantities: hexadecimal digits after `0x`. `readQuantity` reads one and
`quantity` writes one. Logs and blocks arrive as records of texts; `LogReply.toLog` and `BlockReply.toBlock`
read their quantities and bring addresses and hashes into the normal form.
-/

namespace StakeTrail.Rpc

open Text

/-- Reads a quantity; the `0x` may be missing. -/
def readQuantity (raw : String) : Except Fault Nat :=
  match Numeral.natural 16 Word.top (Address.bare raw) with
  | .ok n => .ok n
  | .error why => .error (.decode (.quantity raw why))

/-- Writes a quantity. -/
def quantity (n : Nat) : String := "0x" ++ String.ofList (Nat.toDigits 16 n)

/-- A log as it arrives. -/
structure LogReply where
  address : String
  topics : List String
  data : String
  block : String
  txHash : String
  index : String
  removed : Option Bool
  deriving DecidableEq, Repr, Inhabited

/-- Reads a log. -/
def LogReply.ofJson? (j : Json) : Option LogReply := do
  match ← j.fields? ["address", "topics", "data", "blockNumber", "transactionHash", "logIndex", "removed"] with
  | [address, topics, data, block, txHash, index, removed] =>
    some {
      address := ← Json.need Json.string? address
      topics := ← Json.need (Json.list? Json.string?) topics
      data := ← Json.need Json.string? data
      block := ← Json.need Json.string? block
      txHash := ← Json.need Json.string? txHash
      index := ← Json.need Json.string? index
      removed := ← Json.allow Json.bool? removed }
  | _ => none

/-- The log that arrived. -/
def LogReply.toLog (w : LogReply) : Except Fault LogRecord := do
  let block ← readQuantity w.block
  let index ← readQuantity w.index
  .ok {
    block, index
    address := Address.normalForm w.address
    topics := w.topics
    data := w.data
    txHash := Address.normalForm w.txHash
    removed := w.removed.getD false }

/-- A withdrawal as it arrives. -/
structure WithdrawalReply where
  address : String
  amount : String
  deriving DecidableEq, Repr, Inhabited

/-- Reads a withdrawal. -/
def WithdrawalReply.ofJson? (j : Json) : Option WithdrawalReply := do
  match ← j.fields? ["address", "amount"] with
  | [address, amount] =>
    some { address := ← Json.need Json.string? address, amount := ← Json.need Json.string? amount }
  | _ => none

/-- The withdrawal that arrived. -/
def WithdrawalReply.toWithdrawal (w : WithdrawalReply) : Except Fault Withdrawal := do
  let amount ← readQuantity w.amount
  .ok ⟨Address.normalForm w.address, amount⟩

/-- A block as it arrives. -/
structure BlockReply where
  number : String
  hash : String
  gasUsed : String
  gasLimit : String
  timestamp : String
  withdrawals : Option (List WithdrawalReply)
  deriving DecidableEq, Repr, Inhabited

/-- Reads a block. -/
def BlockReply.ofJson? (j : Json) : Option BlockReply := do
  match ← j.fields? ["number", "hash", "gasUsed", "gasLimit", "timestamp", "withdrawals"] with
  | [number, hash, gasUsed, gasLimit, timestamp, withdrawals] =>
    some {
      number := ← Json.need Json.string? number
      hash := ← Json.need Json.string? hash
      gasUsed := ← Json.need Json.string? gasUsed
      gasLimit := ← Json.need Json.string? gasLimit
      timestamp := ← Json.need Json.string? timestamp
      withdrawals := ← Json.allow (Json.list? WithdrawalReply.ofJson?) withdrawals }
  | _ => none

/-- The block that arrived; its withdrawals are read first, and its time wraps into a signed word. -/
def BlockReply.toBlock (w : BlockReply) : Except Fault ExecutionBlock := do
  let withdrawals ← (w.withdrawals.getD []).mapM WithdrawalReply.toWithdrawal
  let height ← readQuantity w.number
  let gasUsed ← readQuantity w.gasUsed
  let gasLimit ← readQuantity w.gasLimit
  let time ← readQuantity w.timestamp
  .ok { height, gasUsed, gasLimit, withdrawals, hash := Address.normalForm w.hash, time := Word.signed time }

end StakeTrail.Rpc
