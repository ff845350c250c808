import StakeTrail.Address
import StakeTrail.Chain.Validator
import StakeTrail.Keyed

/-!
# The active set of a height

An active set leads from the consensus address of a validator to the execution address of its key. Consensus
addresses are compared without leading `0x` and in upper case; of two members with one address the later
counts.
-/

namespace StakeTrail.Uptime

open Text

/-- The form in which consensus addresses are compared. -/
def setKey (address : String) : String :=
  String.ofList ((skipAll ['0', 'x'] address.length address.toList).map Char.toUpper)

/-- Consensus addresses with the execution addresses behind them. -/
abbrev ActiveSet := List (String × String)

namespace ActiveSet

/-- Continues a set with validators, up to the first key that has no address. -/
def extendWith : ActiveSet → List Validator → Except Fault ActiveSet
  | set, [] => .ok set
  | set, v :: rest =>
    match Address.ofKey v.key with
    | .error e => .error e
    | .ok owner => extendWith (Keyed.put Prod.fst (setKey v.address, owner) set) rest

/-- The set of some validators. -/
def ofValidators (validators : List Validator) : Except Fault ActiveSet := extendWith [] validators

/-- The execution address behind a consensus address. -/
def owner? (set : ActiveSet) (address : String) : Option String :=
  (Keyed.get? Prod.fst (setKey address) set).map (·.2)

end ActiveSet

end StakeTrail.Uptime
