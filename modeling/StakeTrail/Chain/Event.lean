/-!
# Raw chain records

What a node reports before it is interpreted: the events of a consensus block and the logs of the staking
contract. `EventRecord.get?` reads an attribute; of several with one key the last counts.
-/

namespace StakeTrail

/-- A named value carried by a consensus event. -/
structure Attribute where
  key : String
  value : String
  deriving DecidableEq, Repr, Inhabited

/-- An event of a consensus block. -/
structure EventRecord where
  kind : String
  attributes : List Attribute
  deriving DecidableEq, Repr, Inhabited

/-- An event without attributes. -/
def EventRecord.ofKind (kind : String) : EventRecord := ⟨kind, []⟩

/-- An event with one attribute more. -/
def EventRecord.push (event : EventRecord) (key value : String) : EventRecord :=
  { event with attributes := event.attributes ++ [⟨key, value⟩] }

/-- The value of the last attribute with a key. -/
def EventRecord.get? (event : EventRecord) (key : String) : Option String :=
  (event.attributes.reverse.find? fun a => a.key == key).map (·.value)

/-- A log of the staking contract. -/
structure LogRecord where
  address : String
  topics : List String
  data : String
  block : Nat
  txHash : String
  index : Nat
  /-- The block that held the log has been abandoned. -/
  removed : Bool
  deriving DecidableEq, Repr, Inhabited

end StakeTrail
