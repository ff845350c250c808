import StakeTrail.Address
import StakeTrail.Chain.Event
import StakeTrail.Staking.Kind
import StakeTrail.Word

/-!
# Classifying consensus events

A consensus event is recognised by its type: an operation's name followed by `_success` or `_failure`. Other
events are passed over. A recognised event becomes a `ConsensusEvent` row or, for want of an attribute that
its kind needs, a fault; `rowsOfBlock` yields all rows of a block or the first fault.
-/

namespace StakeTrail.Staking

/-- A classified staking event of the consensus chain. -/
structure ConsensusEvent where
  block : Nat
  /-- The place of the event in the list of its block. -/
  index : Nat
  /-- The hash of the execution transaction that caused it. -/
  txHash : String
  kind : Kind
  succeeded : Bool
  errorCode : String
  /-- The decimal amount as it arrived, or empty. -/
  amount : String
  deriving DecidableEq, Repr, Inhabited

namespace Classify

/-- The operations, by the name they carry in the type of an event. -/
def bases : List (String × Kind) := [
  ("set_operator", .setOperator),
  ("unset_operator", .unsetOperator),
  ("set_withdrawal_address", .setWithdrawalAddress),
  ("set_reward_address", .setRewardAddress),
  ("update_validator_commission", .updateValidatorCommission),
  ("create_validator", .createValidator),
  ("delegate", .stake),
  ("redelegate", .redelegate),
  ("undelegate", .unstake),
  ("unjail", .unjail)]

/-- The operation that the type of an event names: the type without its ending. -/
def operation? (type : String) : Option (List Char) :=
  (Text.before? "_success".toList type.toList).or (Text.before? "_failure".toList type.toList)

/-- The kind of a type, as if the principal acted. -/
def baseKind? (type : String) : Option Kind := do
  let name ← operation? type
  (bases.find? fun entry => entry.1.toList == name).map (·.2)

/-- An attribute that the kind needs. -/
def needed (event : EventRecord) (kind : Kind) (key : String) : Except Fault String :=
  match event.get? key with
  | some value => .ok value
  | none => .error (.missingAttribute kind.name key)

/-- The address of the principal, for the kinds that can be carried out on somebody's behalf. -/
def principal? (event : EventRecord) (base : Kind) : Except Fault (Option String) :=
  match base with
  | .stake | .redelegate | .unstake => (needed event base "delegator_addr").map some
  | .unjail => do
    let key ← needed event base "validator_cmp_pubkey"
    (Address.ofKeyText key).map some
  | _ => .ok none

/-- The kind of a recognised event: on behalf when the sender is not the principal. -/
def actualKind (event : EventRecord) (base : Kind) : Except Fault Kind := do
  match ← principal? event base with
  | none => .ok base
  | some principal =>
    let sender ← needed event base "sender_address"
    .ok (base.actedBy (Address.agree principal sender))

end Classify

open Classify in
/-- Classifies one event of a block; none for an event that is passed over. -/
def rowOfEvent (block index : Nat) (event : EventRecord) : Except Fault (Option ConsensusEvent) :=
  match baseKind? event.kind with
  | none => .ok none
  | some base => do
    let kind ← actualKind event base
    let code := event.get? "error_code"
    .ok (some {
      block, index, kind
      txHash := Address.normalForm ((event.get? "tx_hash").getD "")
      succeeded := code.isNone
      errorCode := code.getD ""
      amount := (event.get? "amount").getD "" })

/-- Classifies events of which the first has the given index; the place that a row gets is a half word. -/
def rowsFrom (block : Nat) : Nat → List EventRecord → Except Fault (List ConsensusEvent)
  | _, [] => .ok []
  | index, event :: rest => do
    let row ← rowOfEvent block (Word.half index) event
    let rows ← rowsFrom block (index + 1) rest
    .ok (row.toList ++ rows)

/-- Classifies the events of a block. -/
def rowsOfBlock (block : Nat) (events : List EventRecord) : Except Fault (List ConsensusEvent) :=
  rowsFrom block 0 events

end StakeTrail.Staking
