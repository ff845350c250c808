import StakeTrail.Abi.Basic
import StakeTrail.Digest.Keccak

/-!
# Notices of the staking contract

The contract reports every operation with one of ten events. A `Topic` names an event: it fixes the types of
the parameters, the signature and, as its digest, the first topic of a log. A `Notice` is an event with its
parameters; `Notice.values` and `Notice.ofValues?` lead to the plain parameter list and back.
-/

namespace StakeTrail.Contract

/-- The address at which the contract is predeployed. -/
def predeployed : String := "0xCCcCcC0000000000000000000000000000000001"

/-- An event of the staking contract. -/
inductive Topic
  | createValidator
  | setWithdrawalAddress
  | setRewardAddress
  | updateValidatorCommission
  | deposit
  | redelegate
  | withdraw
  | unjail
  | setOperator
  | unsetOperator
  deriving DecidableEq, Repr, Inhabited

namespace Topic

/-- Every event, in the order of subscription. -/
def all : List Topic := [
  createValidator, setWithdrawalAddress, setRewardAddress, updateValidatorCommission, deposit, redelegate,
  withdraw, unjail, setOperator, unsetOperator]

/-- The name of an event. -/
def name : Topic → String
  | createValidator => "CreateValidator"
  | setWithdrawalAddress => "SetWithdrawalAddress"
  | setRewardAddress => "SetRewardAddress"
  | updateValidatorCommission => "UpdateValidatorCommission"
  | deposit => "Deposit"
  | redelegate => "Redelegate"
  | withdraw => "Withdraw"
  | unjail => "Unjail"
  | setOperator => "SetOperator"
  | unsetOperator => "UnsetOperator"

/-- The types of the parameters. -/
def types : Topic → List Abi.Ty
  | createValidator =>
    [.bytes, .string, .uint 256, .uint 32, .uint 32, .uint 32, .uint 8, .address, .bytes]
  | setWithdrawalAddress | setRewardAddress => [.address, .word]
  | updateValidatorCommission => [.bytes, .uint 32]
  | deposit => [.address, .bytes, .uint 256, .uint 256, .uint 256, .address, .bytes]
  | redelegate => [.address, .bytes, .bytes, .uint 256, .address, .uint 256]
  | withdraw => [.address, .bytes, .uint 256, .uint 256, .address, .bytes]
  | unjail => [.address, .bytes, .bytes]
  | setOperator => [.address, .address]
  | unsetOperator => [.address]

/-- The name with the types of the parameters. -/
def signature (t : Topic) : String := t.name ++ "(" ++ ",".intercalate (t.types.map Abi.Ty.name) ++ ")"

/-- The first topic of a log of this event. -/
def hash (t : Topic) : Bytes := Digest.keccak256 (Text.Hex.utf8 t.signature)

/-- The events with their first topics. -/
def hashes : List (Bytes × Topic) := all.map fun t => (t.hash, t)

/-- The event with a first topic. -/
def ofHash? (hash : Bytes) : Option Topic := (hashes.find? fun entry => entry.1 == hash).map (·.2)

end Topic

/-- An event of the staking contract with its parameters. -/
inductive Notice
  | createValidator (key moniker : Bytes) (amount rate maxRate maxChange unlocked : Nat) (operator data : Bytes)
  | setWithdrawalAddress (delegator target : Bytes)
  | setRewardAddress (delegator target : Bytes)
  | updateValidatorCommission (key : Bytes) (rate : Nat)
  | deposit (delegator key : Bytes) (amount period delegation : Nat) (operator data : Bytes)
  | redelegate (delegator source target : Bytes) (delegation : Nat) (operator : Bytes) (amount : Nat)
  | withdraw (delegator key : Bytes) (amount delegation : Nat) (operator data : Bytes)
  | unjail (unjailer key data : Bytes)
  | setOperator (delegator operator : Bytes)
  | unsetOperator (delegator : Bytes)
  deriving DecidableEq, Repr, Inhabited

namespace Notice

/-- The event that a notice reports. -/
def topic : Notice → Topic
  | createValidator .. => .createValidator
  | setWithdrawalAddress .. => .setWithdrawalAddress
  | setRewardAddress .. => .setRewardAddress
  | updateValidatorCommission .. => .updateValidatorCommission
  | deposit .. => .deposit
  | redelegate .. => .redelegate
  | withdraw .. => .withdraw
  | unjail .. => .unjail
  | setOperator .. => .setOperator
  | unsetOperator .. => .unsetOperator

/-- The parameters in order. -/
def values : Notice → List Abi.Value
  | createValidator key moniker amount rate maxRate maxChange unlocked operator data =>
    [.bytes key, .string moniker, .uint amount, .uint rate, .uint maxRate, .uint maxChange, .uint unlocked,
      .address operator, .bytes data]
  | setWithdrawalAddress delegator target => [.address delegator, .word target]
  | setRewardAddress delegator target => [.address delegator, .word target]
  | updateValidatorCommission key rate => [.bytes key, .uint rate]
  | deposit delegator key amount period delegation operator data =>
    [.address delegator, .bytes key, .uint amount, .uint period, .uint delegation, .address operator,
      .bytes data]
  | redelegate delegator source target delegation operator amount =>
    [.address delegator, .bytes source, .bytes target, .uint delegation, .address operator, .uint amount]
  | withdraw delegator key amount delegation operator data =>
    [.address delegator, .bytes key, .uint amount, .uint delegation, .address operator, .bytes data]
  | unjail unjailer key data => [.address unjailer, .bytes key, .bytes data]
  | setOperator delegator operator => [.address delegator, .address operator]
  | unsetOperator delegator => [.address delegator]

/-- The notice of an event with the given parameters. -/
def ofValues? : Topic → List Abi.Value → Option Notice
  | .createValidator,
    [.bytes key, .string moniker, .uint amount, .uint rate, .uint maxRate, .uint maxChange, .uint unlocked,
      .address operator, .bytes data] =>
    some (createValidator key moniker amount rate maxRate maxChange unlocked operator data)
  | .setWithdrawalAddress, [.address delegator, .word target] => some (setWithdrawalAddress delegator target)
  | .setRewardAddress, [.address delegator, .word target] => some (setRewardAddress delegator target)
  | .updateValidatorCommission, [.bytes key, .uint rate] => some (updateValidatorCommission key rate)
  | .deposit,
    [.address delegator, .bytes key, .uint amount, .uint period, .uint delegation, .address operator,
      .bytes data] =>
    some (deposit delegator key amount period delegation operator data)
  | .redelegate,
    [.address delegator, .bytes source, .bytes target, .uint delegation, .address operator, .uint amount] =>
    some (redelegate delegator source target delegation operator amount)
  | .withdraw,
    [.address delegator, .bytes key, .uint amount, .uint delegation, .address operator, .bytes data] =>
    some (withdraw delegator key amount delegation operator data)
  | .unjail, [.address unjailer, .bytes key, .bytes data] => some (unjail unjailer key data)
  | .setOperator, [.address delegator, .address operator] => some (setOperator delegator operator)
  | .unsetOperator, [.address delegator] => some (unsetOperator delegator)
  | _, _ => none

theorem ofValues?_values (n : Notice) : ofValues? n.topic n.values = some n := by cases n <;> rfl

/-- The data of a log that reports a notice. -/
def encode (n : Notice) : Bytes := Abi.encode n.values

/-- Reads the data of a log of an event. -/
def decode? (t : Topic) (data : Bytes) : Option Notice := (Abi.decode? t.types data).bind (ofValues? t)

end Notice

end StakeTrail.Contract
