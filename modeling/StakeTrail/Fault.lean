import StakeTrail.Text.Hex
import StakeTrail.Text.Numeral

/-!
# Faults

Everything that can go wrong between a chain and a table, as a cause. `Fault.kind` is the short label that
counters carry and `Fault.message` the wording; no other function words a fault. Where the words come from a
decoder, a database or a network library they are not the program's own, and `foreign` stands for them.
-/

namespace StakeTrail

open Text

/-- Stands for words that are not the program's own. -/
def foreign : String := "<lib>"

/-- Why data that arrived cannot be read. -/
inductive DecodeFault
  | stated (text : String)
  | stakingKind (name : String)
  | interval (name : String)
  | amount (raw : String) (why : Numeral.Flaw)
  | deltaOverflow (height : Nat)
  | totalOverflow (height : Nat)
  | storedReward (raw : String) (why : Numeral.Flaw)
  | quantity (raw : String) (why : Numeral.Flaw)
  | field (name raw : String) (why : Numeral.Flaw)
  | blockTime (raw : String)
  | topic (raw : String)
  | logData (why : Hex.Flaw)
  | event (signature : String)
  deriving DecidableEq, Repr, Inhabited

/-- The wording of an unreadable datum. -/
def DecodeFault.message : DecodeFault → String
  | .stated text => text
  | .stakingKind name => s!"unknown staking event type '{name}'"
  | .interval name => s!"unknown interval '{name}'"
  | .amount raw why => s!"parse amount '{raw}' failed: " ++ why.message
  | .deltaOverflow height => s!"stake delta overflow at block {height}"
  | .totalOverflow height => s!"total stake overflow at block {height}"
  | .storedReward raw why => s!"stored reward amount '{raw}': " ++ why.message
  | .quantity raw why => s!"hex quantity '{raw}': " ++ why.message
  | .field name raw why => s!"{name} '{raw}': " ++ why.message
  | .blockTime raw => s!"block time '{raw}': {foreign}"
  | .topic raw => s!"topic '{raw}': {foreign}"
  | .logData why => "log data: " ++ why.message
  | .event signature => s!"{signature}: {foreign}"

/-- Why a public key has no address. -/
inductive KeyFault
  | stated (text : String)
  | hex (why : Hex.Flaw)
  | length (bytes : Nat)
  | offCurve
  | base64 (kind address : String)
  deriving DecidableEq, Repr, Inhabited

/-- The wording of an unusable key. -/
def KeyFault.message : KeyFault → String
  | .stated text => text
  | .hex why => "invalid hex: " ++ why.message
  | .length bytes => s!"invalid compressed public key length: {bytes}"
  | .offCurve => "failed to decompress public key: crypto error"
  | .base64 kind address => s!"{kind} key of {address}: {foreign}"

/-- A failure of the indexing pipeline. -/
inductive Fault
  /-- A node cannot be reached or refuses a call. -/
  | rpc (text : String)
  /-- The database refuses a statement. -/
  | storage (text : String)
  /-- The cache refuses a call. -/
  | cache (text : String)
  /-- Data that arrived cannot be read. -/
  | decode (why : DecodeFault)
  /-- A recognised event lacks an attribute that its kind needs. -/
  | missingAttribute (event key : String)
  /-- A commit is signed by nobody in the active set. -/
  | unknownValidator (validator : String) (height : Nat)
  /-- The block that a stake change belongs to is not stored. -/
  | missingBlockTime (height : Nat)
  /-- A public key has no address. -/
  | invalidKey (why : KeyFault)
  /-- The checkpoint of an indexer was never set up. -/
  | checkpointMissing (indexer : String)
  /-- The configuration is unusable. -/
  | config (text : String)
  /-- Any other failure. -/
  | other (text : String)
  /-- Word arithmetic left its range, or an indexer broke down: the running task is lost. -/
  | crash
  deriving DecidableEq, Repr, Inhabited

namespace Fault

/-- The label that counters carry. -/
def kind : Fault → String
  | .rpc _ => "rpc"
  | .storage _ => "storage"
  | .cache _ => "cache"
  | .decode _ => "decode"
  | .missingAttribute .. => "missing_attribute"
  | .unknownValidator .. => "unknown_validator"
  | .missingBlockTime _ => "missing_block_time"
  | .invalidKey _ => "invalid_pubkey"
  | .checkpointMissing _ => "checkpoint_missing"
  | .config _ => "config"
  | .other _ => "other"
  | .crash => "crash"

/-- The wording of a failure. -/
def message : Fault → String
  | .rpc text => "RPC error: " ++ text
  | .storage text => "Storage error: " ++ text
  | .cache text => "Cache error: " ++ text
  | .decode why => "Decode error: " ++ why.message
  | .missingAttribute event key => s!"event {event}: attribute '{key}' not found"
  | .unknownValidator validator height =>
    s!"validator {validator} in block {height} not found in active validators"
  | .missingBlockTime height => s!"block {height} time not found"
  | .invalidKey why => "invalid compressed public key: " ++ why.message
  | .checkpointMissing indexer => s!"checkpoint for indexer '{indexer}' has not been set up"
  | .config text => "Configuration error: " ++ text
  | .other text => text
  | .crash => "task lost"

/-- Failures of a node or of the database, which pass by themselves. -/
def isPassing : Fault → Bool
  | .rpc _ | .storage _ => true
  | _ => false

/-- Failures of the chain data: it contradicts itself or is not there yet. -/
def isInconsistency : Fault → Bool
  | .decode _ | .missingAttribute .. | .unknownValidator .. | .missingBlockTime _ | .invalidKey _ => true
  | _ => false

end Fault

end StakeTrail
