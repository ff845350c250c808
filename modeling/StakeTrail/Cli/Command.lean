import StakeTrail.Text.Blank

/-!
# Commands

What the program can be asked to do. The commands `run` and `status` take the name of a settings file after
`-c` or `--config`.
-/

namespace StakeTrail.Cli

open Text

/-- What the program is asked to do. -/
inductive Command
  /-- Run the indexers. -/
  | run (config : String)
  /-- List the checkpoints. -/
  | status (config : String)
  /-- Show the defaults and the indexers. -/
  | info
  | version
  deriving DecidableEq, Repr, Inhabited

namespace Command

/-- The settings file that is read when none is named. -/
def standardConfig : String := "stakeindex.toml"

/-- A name that is not empty. -/
def name? (cs : List Char) : Option String := if cs.isEmpty then none else some (String.ofList cs)

/-- The name in an option that is one word with its value. -/
def attached? (word : List Char) : Option String :=
  (after? "--config=".toList word).bind name? |>.orElse fun _ =>
    match word with
    | '-' :: 'c' :: '=' :: value => name? value
    | '-' :: 'c' :: value => name? value
    | _ => none

/-- The settings file that options name. A separate value does not begin with a dash. -/
def config? : List String → Option String
  | [] => some standardConfig
  | [word] => attached? word.toList
  | [option, value] =>
    if (option = "-c" ∨ option = "--config") ∧ (value = "-" ∨ value.toList.head? ≠ some '-') then
      name? value.toList
    else none
  | _ => none

/-- Reads a command. -/
def parse? : List String → Option Command
  | "run" :: options => (config? options).map run
  | "status" :: options => (config? options).map status
  | ["info"] => some info
  | ["--version"] => some version
  | ["-V"] => some version
  | _ => none

end Command

end StakeTrail.Cli
