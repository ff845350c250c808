import StakeTrail.Cli.Command
import StakeTrail.Cli.Outcome
import StakeTrail.Indexing.Fleet
import StakeTrail.Rpc.ConsensusNode
import StakeTrail.Rpc.ExecutionNode
import StakeTrail.Store.Archive
import StakeTrail.Store.Location

/-!
# The program

A command reads a settings file, opens the database that it names and goes to work. What a command sees of its
surroundings are files and variables; `status` and `start` are functions of them. `start` makes ready a fleet
of indexers, which `Running.round` lets take turns.
-/

namespace StakeTrail.Cli

open Indexing

/-- What a command sees of its surroundings. -/
structure Surroundings where
  env : String → Option String
  /-- The text of a file, or the reason why it cannot be read. -/
  file : String → Except String String
  /-- Whether a file that is missing can be created. -/
  creatable : String → Bool

namespace Surroundings

/-- The name of a file seen from the working directory. -/
def plain (name : String) : String := String.ofList (Text.skipAll ['.', '/'] name.length name.toList)

/-- A working directory that holds some files and nothing else. -/
def ofFiles (files environment : List (String × String)) : Surroundings where
  env name := (Keyed.get? Prod.fst name environment).map (·.2)
  file name :=
    match Keyed.get? Prod.fst (plain name) files with
    | some (_, text) => .ok text
    | none =>
      if plain name = "" ∨ plain name = "." then .error "Is a directory (os error 21)"
      else .error "No such file or directory (os error 2)"
  creatable name := !(plain name).toList.contains '/'

end Surroundings

/-! ## Settings and database -/

/-- Reads a settings file. -/
def configure (s : Surroundings) (path : String) : Except Complaint Config :=
  during s!"loading config from {path}" <|
    match s.file path with
    | .ok text => Config.prepare s.env text
    | .error why => .error (Config.unreadable path why)

/-- Opens the database at a location. -/
def openTables (s : Surroundings) : Store.Location → Option Store.Tables
  | .memory => some {}
  | .file name creates readsOnly =>
    match s.file name with
    | .ok text => if readsOnly && text.isEmpty then none else Store.Tables.restore? text
    | .error _ => if creates && !readsOnly && s.creatable name then some {} else none

/-- Connects to the database of a configuration. -/
def openDatabase (s : Surroundings) (c : Config) : Except Complaint Store.Database :=
  during "connecting to database" <|
    match (Store.Location.parse? c.storage.url).bind (openTables s) with
    | some tables => .ok { tables }
    | none => .error (.storage foreign)

/-- The file in which the database of a configuration is kept. -/
def databaseFile? (c : Config) : Option String :=
  match Store.Location.parse? c.storage.url with
  | some (.file name _ false) => some name
  | _ => none

/-! ## Commands -/

/-- Lists the checkpoints in the database. -/
def status (s : Surroundings) (path : String) : Except Complaint String := do
  let c ← configure s path
  let database ← openDatabase s c
  match (Store.checkpoints.list.run database).1 with
  | .ok points => .ok (statusText points)
  | .error fault => .error ⟨none, fault⟩

/-- A fleet at work. -/
structure Running where
  config : Config
  fleet : Fleet (Session Cache.Memory)
  positions : List Position
  session : Session Cache.Memory

/-- A line to a node that a configuration names. -/
def line (c : Config) (node : Nat → Rpc.Request → Rpc.Attempt) : Rpc.Line := { policy := c.policy, node }

/-- The fleet of a configuration over two nodes. -/
def fleet (c : Config) (consensus execution : Nat → Rpc.Request → Rpc.Attempt) :
    Except Complaint (Fleet (Session Cache.Memory)) := do
  let consensus := Rpc.ConsensusNode.feed (line c consensus)
  let execution := Rpc.ExecutionNode.feed c.nodes.contract (line c execution)
  match c.indexers consensus execution Cache.memory with
  | .ok indexers => .ok ⟨Session.loop c.work.schedule, indexers⟩
  | .error fault => .error ⟨none, fault⟩

/-- Makes the indexers of a configuration ready. -/
def start (s : Surroundings) (path : String) (consensus execution : Nat → Rpc.Request → Rpc.Attempt) :
    Except Complaint Running := do
  let config ← configure s path
  let database ← openDatabase s config
  let fleet ← fleet config consensus execution
  let session : Session Cache.Memory := { database, cache := [], ledger := ⟨config.start.amount⟩ }
  match fleet.init.run session with
  | (.ok (), session) => .ok { config, fleet, positions := fleet.start, session }
  | (.error fault, _) => during "initializing indexers" (.error fault)

namespace Running

/-- Lets every indexer take a turn. -/
def round (r : Running) : Running :=
  let (positions, session) := r.fleet.run (List.range r.fleet.indexers.length) (r.positions, r.session)
  { r with positions, session }

/-- Whether an indexer is in the middle of a range. -/
def isBusy (r : Running) : Bool :=
  r.positions.any fun p =>
    match p with
    | .working .. => true
    | _ => false

/-- The text of the database file. -/
def archive (r : Running) : String := r.session.database.tables.archive

end Running

/-- The outcome of a command that ends by itself. -/
def Outcome.ofText : Except Complaint String → Outcome
  | .ok output => { output }
  | .error complaint => complaint.outcome

end StakeTrail.Cli
