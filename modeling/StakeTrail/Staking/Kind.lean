import StakeTrail.Fault

/-!
# Kinds of staking operations

Both chains tag their events with the same fourteen kinds. Four of them have a second form for operations
that somebody carries out on behalf of the principal; `onBehalf?` leads from the one to the other.
-/

namespace StakeTrail.Staking

/-- A kind of staking operation. -/
inductive Kind
  | setOperator
  | unsetOperator
  | setWithdrawalAddress
  | setRewardAddress
  | updateValidatorCommission
  | createValidator
  | stake
  | stakeOnBehalf
  | redelegate
  | redelegateOnBehalf
  | unstake
  | unstakeOnBehalf
  | unjail
  | unjailOnBehalf
  deriving DecidableEq, Repr, Inhabited

namespace Kind

/-- Every kind. -/
def all : List Kind := [
  setOperator, unsetOperator, setWithdrawalAddress, setRewardAddress, updateValidatorCommission,
  createValidator, stake, stakeOnBehalf, redelegate, redelegateOnBehalf, unstake, unstakeOnBehalf, unjail,
  unjailOnBehalf]

/-- The name under which a kind is stored. -/
def name : Kind → String
  | setOperator => "SetOperator"
  | unsetOperator => "UnsetOperator"
  | setWithdrawalAddress => "SetWithdrawalAddress"
  | setRewardAddress => "SetRewardAddress"
  | updateValidatorCommission => "UpdateValidatorCommission"
  | createValidator => "CreateValidator"
  | stake => "Stake"
  | stakeOnBehalf => "StakeOnBehalf"
  | redelegate => "Redelegate"
  | redelegateOnBehalf => "RedelegateOnBehalf"
  | unstake => "Unstake"
  | unstakeOnBehalf => "UnstakeOnBehalf"
  | unjail => "Unjail"
  | unjailOnBehalf => "UnjailOnBehalf"

/-- The kind with a name. -/
def ofName? (text : String) : Option Kind := all.find? fun k => k.name == text

/-- The kind with a name, or why there is none. -/
def ofName (text : String) : Except Fault Kind :=
  match ofName? text with
  | some k => .ok k
  | none => .error (.decode (.stakingKind text))

/-- The form of an operation that somebody else carries out, for the kinds that have one. -/
def onBehalf? : Kind → Option Kind
  | stake => some stakeOnBehalf
  | redelegate => some redelegateOnBehalf
  | unstake => some unstakeOnBehalf
  | unjail => some unjailOnBehalf
  | _ => none

/-- The form of an operation, by whether the principal carries it out. -/
def actedBy (k : Kind) (principal : Bool) : Kind := if principal then k else k.onBehalf?.getD k

theorem ofName?_name (k : Kind) : ofName? k.name = some k := by cases k <;> rfl

end Kind

end StakeTrail.Staking
