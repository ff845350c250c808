import StakeTrail.Chain.Feed
import StakeTrail.Rpc.Line
import StakeTrail.Text.Base64
import StakeTrail.Text.Moment

/-!
# Consensus nodes

The calls to a consensus node. Parameters are named; heights and counts are decimal text in both directions,
and keys arrive in base64. The events of a block are those of its transactions in their order, then
its own; a list that is missing or null is empty.
-/

namespace StakeTrail.Rpc.ConsensusNode

open Json Text

variable {α : Type}

/-- A height as a parameter. -/
def atHeight (height : Nat) : String × Json := ("height", .str (toString height))

/-- Reads a record of one field. -/
def only? (name : String) (read : Json → Option α) (j : Json) : Option α := do
  match ← j.fields? [name] with
  | [field] => need read field
  | _ => none

/-- Reads a number in text. -/
def number (name raw : String) : Except Fault Nat :=
  match Numeral.natural 10 Word.top raw with
  | .ok n => .ok n
  | .error why => .error (.decode (.field name raw why))

/-- Reads a moment in text. -/
def moment (raw : String) : Except Fault Int :=
  match Moment.parse? raw with
  | some time => .ok time
  | none => .error (.decode (.blockTime raw))

/-! ## Height -/

/-- Reads the height in a status as text. -/
def statusHeight? : Json → Option String := only? "sync_info" (only? "latest_block_height" string?)

/-- Asks for the latest height. -/
def head : Action Line Nat := do
  let raw ← Line.ask "status" (.obj []) statusHeight?
  Action.ofExcept (number "latest_block_height" raw)

/-! ## Blocks -/

/-- A block as it arrives. -/
structure BlockReply where
  hash : String
  height : String
  time : String
  proposer : String
  deriving DecidableEq, Repr, Inhabited

/-- Reads the header of a block: height, time and proposer. -/
def header? (j : Json) : Option (String × String × String) := do
  match ← j.fields? ["height", "time", "proposer_address"] with
  | [height, time, proposer] => some (← need string? height, ← need string? time, ← need string? proposer)
  | _ => none

/-- Reads a block. -/
def BlockReply.ofJson? (j : Json) : Option BlockReply := do
  match ← j.fields? ["block_id", "block"] with
  | [id, block] =>
    let hash ← need (only? "hash" string?) id
    let (height, time, proposer) ← need (only? "header" header?) block
    some { hash, height, time, proposer }
  | _ => none

/-- The block that arrived. -/
def BlockReply.toBlock (w : BlockReply) : Except Fault ConsensusBlock := do
  let height ← number "height" w.height
  let time ← moment w.time
  .ok { height, hash := w.hash, proposer := w.proposer, time }

/-- Asks for a block. -/
def block (height : Nat) : Action Line ConsensusBlock := do
  let w ← Line.ask "block" (.obj [atHeight height]) BlockReply.ofJson?
  Action.ofExcept w.toBlock

/-! ## Events -/

/-- Reads an attribute; one without a value has an empty one. -/
def attribute? (j : Json) : Option Attribute := do
  match ← j.fields? ["key", "value"] with
  | [key, value] => some ⟨← need string? key, (← allow string? value).getD ""⟩
  | _ => none

/-- Reads an event. -/
def event? (j : Json) : Option EventRecord := do
  match ← j.fields? ["type", "attributes"] with
  | [kind, attributes] => some ⟨← need string? kind, (← allow (list? attribute?) attributes).getD []⟩
  | _ => none

/-- Reads the events of a transaction. -/
def transaction? (j : Json) : Option (List EventRecord) := do
  match ← j.fields? ["events"] with
  | [events] => some ((← allow (list? event?) events).getD [])
  | _ => none

/-- Reads the events of a block. -/
def blockEvents? (j : Json) : Option (List EventRecord) := do
  match ← j.fields? ["txs_results", "finalize_block_events"] with
  | [transactions, own] =>
    let transactions := (← allow (list? transaction?) transactions).getD []
    let own := (← allow (list? event?) own).getD []
    some (transactions.flatten ++ own)
  | _ => none

/-- Asks for the events of a block. -/
def events (height : Nat) : Action Line (List EventRecord) :=
  Line.ask "block_results" (.obj [atHeight height]) blockEvents?

/-! ## Signatures -/

/-- Reads a signature. -/
def signature? (j : Json) : Option Signature := do
  match ← j.fields? ["block_id_flag", "validator_address"] with
  | [flag, validator] =>
    some ⟨VoteFlag.ofNumber (← need word? flag), (← allow string? validator).getD ""⟩
  | _ => none

/-- Reads the signatures of a commit. -/
def signatures? (j : Json) : Option (List Signature) := do
  match ← j.fields? ["signatures"] with
  | [signatures] => fill [] (list? signature?) signatures
  | _ => none

/-- Asks for the signatures of a block. -/
def commit (height : Nat) : Action Line (List Signature) :=
  Line.ask "commit" (.obj [atHeight height]) (only? "signed_header" (only? "commit" signatures?))

/-! ## Validators -/

/-- A validator as it arrives. -/
structure ValidatorReply where
  address : String
  keyKind : String
  key : String
  deriving DecidableEq, Repr, Inhabited

/-- Reads a key: its kind and its text. -/
def key? (j : Json) : Option (String × String) := do
  match ← j.fields? ["type", "value"] with
  | [kind, value] => some (← need string? kind, ← need string? value)
  | _ => none

/-- Reads a validator. -/
def ValidatorReply.ofJson? (j : Json) : Option ValidatorReply := do
  match ← j.fields? ["address", "pub_key"] with
  | [address, key] =>
    let address ← need string? address
    let (keyKind, key) ← need key? key
    some { address, keyKind, key }
  | _ => none

/-- The validator that arrived. -/
def ValidatorReply.toValidator (w : ValidatorReply) : Except Fault Validator :=
  match Base64.decode? w.key with
  | some key => .ok ⟨w.address, key⟩
  | none => .error (.invalidKey (.base64 w.keyKind w.address))

/-- Reads a page of validators with the text of their number. -/
def page? (j : Json) : Option (List ValidatorReply × String) := do
  match ← j.fields? ["validators", "total"] with
  | [validators, total] =>
    some (← fill [] (list? ValidatorReply.ofJson?) validators, ← need string? total)
  | _ => none

/-- Asks for a page of the active set. -/
def validators (height page size : Nat) : Action Line ActivePage := do
  let params := .obj [atHeight height, ("page", .str (toString page)), ("per_page", .str (toString size))]
  let (validators, total) ← Line.ask "validators" params page?
  let total ← Action.ofExcept (number "total" total)
  let validators ← Action.ofExcept (validators.mapM ValidatorReply.toValidator)
  pure ⟨validators, total⟩

/-- What the node at the end of a line says at this moment. -/
def feed (line : Line) : ConsensusFeed where
  head := line.now head
  block height := line.now (block height)
  events height := line.now (events height)
  commit height := line.now (commit height)
  validators height page size := line.now (validators height page size)

end StakeTrail.Rpc.ConsensusNode
