import StakeTrail.Checkpoint
import StakeTrail.Config.Check

/-!
# What a command says

The texts that commands print. A command that fails prints what it was doing and the fault behind that;
`Complaint.text` words both. The list of checkpoints has a column of names and a column of heights.
-/

namespace StakeTrail.Cli

/-- What a command leaves: a code and two texts. -/
structure Outcome where
  code : Nat := 0
  output : String := ""
  errors : String := ""
  deriving DecidableEq, Repr, Inhabited

/-- Lines of a text, each with its end. -/
def lines (texts : List String) : String := String.join (texts.map (· ++ "\n"))

/-! ## Complaints -/

/-- Why a command cannot go on: a fault, and what the command was doing. -/
structure Complaint where
  doing : Option String
  fault : Fault
  deriving DecidableEq, Repr, Inhabited

/-- A text with every line set in. -/
def setIn (text : String) : String :=
  "    " ++ String.ofList (text.toList.flatMap fun c => if c = '\n' then "\n    ".toList else [c])

/-- The wording of a complaint. -/
def Complaint.text (c : Complaint) : String :=
  match c.doing with
  | some doing => s!"Error: {doing}\n\nCaused by:\n" ++ setIn c.fault.message ++ "\n"
  | none => "Error: " ++ c.fault.message ++ "\n"

/-- The outcome of a command that cannot go on. -/
def Complaint.outcome (c : Complaint) : Outcome := { code := 1, errors := c.text }

/-- Says what was being done when a fault came. -/
def during {α : Type} (doing : String) : Except Fault α → Except Complaint α
  | .ok a => .ok a
  | .error fault => .error ⟨some doing, fault⟩

/-! ## Texts -/

/-- The version of the program. -/
def version : String := "0.1.0"

/-- The defaults and the indexers. -/
def infoText : String :=
  let schedule : Indexing.Schedule := {}
  lines ([
    s!"StakeIndex v{version}",
    s!"  Poll interval: {schedule.interval} ms",
    s!"  Lag before a tick does work: {schedule.lag} blocks",
    s!"  Batch size: {schedule.batch} blocks per commit",
    s!"  Reward flush: every {Reward.standardFlushSize} addresses",
    s!"  Vote window: {Uptime.standardWindow} blocks",
    "  Storage backends: SQLite, PostgreSQL",
    "  Cache: in-process",
    "  Metrics: stakeindex.batches_committed, index_errors, storage_errors, rpc_errors " ++
      "(OTLP when [metrics] is set)",
    s!"  Secrets from env: {Config.databaseVariable}, {Config.cacheVariable}",
    "  Indexers:"] ++ Indexing.catalogNames.map ("    " ++ ·))

/-- A text filled up with spaces on the right. -/
def padRight (width : Nat) (text : String) : String :=
  text ++ String.ofList (List.replicate (width - text.length) ' ')

/-- A text filled up with spaces on the left. -/
def padLeft (width : Nat) (text : String) : String :=
  String.ofList (List.replicate (width - text.length) ' ') ++ text

/-- A line of the list of checkpoints. -/
def row (name height : String) : String := padRight 24 name ++ " " ++ padLeft 12 height

/-- The list of checkpoints. -/
def statusText (points : List Checkpoint) : String :=
  if points.isEmpty then lines ["No checkpoints yet. Run \x60stakeindex run\x60 first."]
  else lines (row "INDEXER" "HEIGHT" :: points.map fun c => row c.indexer (toString c.height))

end StakeTrail.Cli
