import StakeTrail.Address
import StakeTrail.Chain.Event
import StakeTrail.Contract.Notice
import StakeTrail.Staking.Kind

/-!
# Decoding contract logs

A log of the staking contract becomes an `ExecutionEvent` row: who acted, on which validators and for whom.
Logs of abandoned blocks, logs without topics and logs of other events are passed over. `rowsOfLogs` keeps
all rows in the order of block and log index, or fails with the first log that cannot be decoded.
-/

namespace StakeTrail.Staking

/-- A decoded staking event of the execution chain. -/
structure ExecutionEvent where
  txHash : String
  index : Nat
  block : Nat
  kind : Kind
  address : String
  source : String
  target : String
  targetAddress : String
  deriving DecidableEq, Repr, Inhabited

end StakeTrail.Staking

namespace StakeTrail.Contract

open Staking Text

/-- What a notice says about who acted and on what. -/
structure Account where
  kind : Kind
  address : String := ""
  source : String := ""
  target : String := ""
  targetAddress : String := ""
  deriving DecidableEq, Repr, Inhabited

/-- The account of a notice. Keys stand for the addresses that own them. -/
def Notice.account : Notice → Except Fault Account
  | .setOperator delegator operator =>
    .ok {
      kind := .setOperator
      address := Address.ofBytes delegator
      targetAddress := Address.ofBytes operator }
  | .unsetOperator delegator => .ok { kind := .unsetOperator, address := Address.ofBytes delegator }
  | .setWithdrawalAddress delegator target =>
    .ok {
      kind := .setWithdrawalAddress
      address := Address.ofBytes delegator
      targetAddress := Address.ofBytes (target.drop 12) }
  | .setRewardAddress delegator target =>
    .ok {
      kind := .setRewardAddress
      address := Address.ofBytes delegator
      targetAddress := Address.ofBytes (target.drop 12) }
  | .updateValidatorCommission key _ => do
    let owner ← Address.ofKey key
    .ok { kind := .updateValidatorCommission, address := owner }
  | .createValidator _ _ _ _ _ _ _ operator _ =>
    .ok {
      kind := .createValidator
      address := Address.ofBytes operator
      target := Address.ofBytes operator }
  | .deposit delegator key _ _ _ operator _ => do
    let owner ← Address.ofKey key
    .ok {
      kind := Kind.stake.actedBy (operator == delegator)
      address := Address.ofBytes operator
      target := owner }
  | .redelegate delegator source target _ operator _ => do
    let sourceOwner ← Address.ofKey source
    let targetOwner ← Address.ofKey target
    .ok {
      kind := Kind.redelegate.actedBy (operator == delegator)
      address := Address.ofBytes operator
      source := sourceOwner
      target := targetOwner }
  | .withdraw delegator key _ _ operator _ => do
    let owner ← Address.ofKey key
    .ok {
      kind := Kind.unstake.actedBy (operator == delegator)
      address := Address.ofBytes operator
      target := owner }
  | .unjail unjailer key _ => do
    let owner ← Address.ofKey key
    .ok {
      kind := Kind.unjail.actedBy (Address.ofBytes unjailer == owner)
      address := Address.ofBytes unjailer
      target := owner }

/-- Reads a topic: 32 bytes in hexadecimal, with or without `0x` in either case. -/
def topicBytes (raw : String) : Except Fault Bytes :=
  let digits :=
    match raw.toList with
    | '0' :: 'x' :: rest => String.ofList rest
    | '0' :: 'X' :: rest => String.ofList rest
    | _ => raw
  match Hex.decode digits with
  | .ok bytes => if bytes.length = 32 then .ok bytes else .error (.decode (.topic raw))
  | .error _ => .error (.decode (.topic raw))

/-- Reads the data of a log. -/
def dataBytes (raw : String) : Except Fault Bytes :=
  match Hex.decode (Address.bare raw) with
  | .ok bytes => .ok bytes
  | .error why => .error (.decode (.logData why))

/-- Reads what a log of an event reports. -/
def noticeOf (t : Topic) (data : Bytes) : Except Fault Notice :=
  match Notice.decode? t data with
  | some notice => .ok notice
  | none => .error (.decode (.event t.signature))

/-- Decodes a log; none for one that is passed over. -/
def rowOfLog (log : LogRecord) : Except Fault (Option ExecutionEvent) :=
  if log.removed then .ok none
  else do
    match ← log.topics.mapM topicBytes with
    | [] => .ok none
    | topic :: _ =>
      let data ← dataBytes log.data
      match Topic.ofHash? topic with
      | none => .ok none
      | some t =>
        let notice ← noticeOf t data
        let account ← notice.account
        .ok (some {
          txHash := Address.normalForm log.txHash
          index := log.index
          block := log.block
          kind := account.kind
          address := account.address
          source := account.source
          target := account.target
          targetAddress := account.targetAddress })

/-- Whether one row comes no later than another. -/
def inOrder (a b : ExecutionEvent) : Bool := a.block < b.block || (a.block == b.block && a.index ≤ b.index)

/-- Decodes logs one after the other. -/
def rowsOfEach : List LogRecord → Except Fault (List ExecutionEvent)
  | [] => .ok []
  | log :: rest => do
    let row ← rowOfLog log
    let rows ← rowsOfEach rest
    .ok (row.toList ++ rows)

/-- Decodes logs and puts the rows in order of block and index; rows of one place stay in order. -/
def rowsOfLogs (logs : List LogRecord) : Except Fault (List ExecutionEvent) := do
  let rows ← rowsOfEach logs
  .ok (rows.mergeSort inOrder)

end StakeTrail.Contract
