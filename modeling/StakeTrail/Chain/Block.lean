/-!
# Blocks

The headers that the two chains deliver. Hash and proposer of a consensus block are kept as the node spells
them; a withdrawal credits an execution address with an amount in gwei and is not stored with its block.
-/

namespace StakeTrail

/-- A consensus block header. -/
structure ConsensusBlock where
  height : Nat
  hash : String
  proposer : String
  /-- Unix seconds. -/
  time : Int
  deriving DecidableEq, Repr, Inhabited

/-- A withdrawal credited to an execution address. -/
structure Withdrawal where
  address : String
  /-- Gwei. -/
  amount : Nat
  deriving DecidableEq, Repr, Inhabited

/-- An execution block header with its withdrawals. -/
structure ExecutionBlock where
  height : Nat
  hash : String
  gasUsed : Nat
  gasLimit : Nat
  /-- Unix seconds. -/
  time : Int
  withdrawals : List Withdrawal
  deriving DecidableEq, Repr, Inhabited

end StakeTrail
