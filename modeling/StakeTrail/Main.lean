import StakeTrail.Cli.Program

/-!
# Command line

Reads the arguments, the environment and the files that a command needs, and prints what the command says. The
program has no line to a node of its own, so a fleet that runs finds both nodes out of reach and looks again
after each pause.
-/

open StakeTrail StakeTrail.Cli

/-- The system's words for a failed reading. -/
def reason : IO.Error → String
  | .noFileOrDirectory .. => "No such file or directory (os error 2)"
  | .permissionDenied .. => "Permission denied (os error 13)"
  | .inappropriateType .. => "Is a directory (os error 21)"
  | e => toString e

/-- The text of a file. -/
def fileText (name : String) : IO (Except String String) := do
  try
    return .ok (← IO.FS.readFile name)
  catch e => return .error (reason e)

/-- The surroundings of a command that reads the given files. -/
def surroundings (names : List String) : IO Surroundings := do
  let texts ← names.mapM fun name => return (name, ← fileText name)
  let environment ← [Config.databaseVariable, Config.cacheVariable].mapM fun name =>
    return (name, ← IO.getEnv name)
  return {
    env := fun name => (Keyed.get? Prod.fst name environment).bind (·.2)
    file := fun name =>
      match Keyed.get? Prod.fst name texts with
      | some (_, text) => text
      | none => .error "No such file or directory (os error 2)"
    creatable := fun _ => true }

/-- The surroundings of a command with a settings file. -/
def surroundingsOf (path : String) : IO Surroundings := do
  let first ← surroundings [path]
  match configure first path with
  | .ok c => surroundings (path :: (databaseFile? c).toList)
  | .error _ => return first

/-- Prints an outcome and hands back its code. -/
def say (o : Outcome) : IO UInt32 := do
  IO.print o.output
  IO.eprint o.errors
  return UInt32.ofNat o.code

/-- Keeps the database of a fleet. -/
def keep (r : Running) : IO Unit :=
  match databaseFile? r.config with
  | some name => IO.FS.writeFile name r.archive
  | none => pure ()

/-- Lets a fleet work, with a pause whenever nobody is busy. -/
partial def work (r : Running) : IO Unit := do
  let r := r.round
  if r.isBusy then work r
  else
    keep r
    IO.sleep (UInt32.ofNat r.config.work.schedule.interval)
    work r

/-- A node that is out of reach. -/
def nowhere (_ : Nat) (_ : Rpc.Request) : Rpc.Attempt := .lost "error sending request"

/-- Runs a command. -/
def execute : Command → IO UInt32
  | .info => say { output := infoText }
  | .version => say { output := lines [s!"stakeindex {Cli.version}"] }
  | .status path => do say (.ofText (status (← surroundingsOf path) path))
  | .run path => do
    match start (← surroundingsOf path) path nowhere nowhere with
    | .ok running =>
      keep running
      work running
      return 0
    | .error complaint => say complaint.outcome

/-- The command line. -/
def main (arguments : List String) : IO UInt32 :=
  match Command.parse? arguments with
  | some command => execute command
  | none => say { code := 2, errors := lines ["Usage: stakeindex <run|status|info> [--config <FILE>]"] }
