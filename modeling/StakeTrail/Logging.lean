import StakeTrail.Json.Reader

/-!
# Log settings

A level for everything, other levels for single components, and the form of a line. `directives` spells the
levels as a filter: the general one, then one entry a component in order of their names.
-/

namespace StakeTrail

/-- How much is logged, and in which form. -/
structure Logging where
  level : String := "info"
  /-- Levels by component. -/
  components : List (String × String) := []
  /-- Lines are JSON objects. -/
  json : Bool := false
  deriving DecidableEq, Repr, Inhabited

namespace Logging

/-- A component's name as a filter spells it. -/
def componentName (name : String) : String :=
  String.ofList (name.toList.map fun c => if c = '-' then '_' else c)

/-- The levels as a filter. -/
def directives (l : Logging) : String :=
  let sorted := l.components.mergeSort fun a b => decide (a.1 ≤ b.1)
  ",".intercalate (l.level :: sorted.map fun (name, level) => componentName name ++ "=" ++ level)

/-- Reads levels by component; of two entries with one name the last counts. -/
def components? : Json → Option (List (String × String))
  | .obj members => do
    let read ← members.mapM fun (name, j) => j.string?.map fun level => (name, level)
    some (read.foldl (fun kept entry => kept.filter (·.1 ≠ entry.1) ++ [entry]) [])
  | _ => none

/-- Reads log settings. -/
def ofJson? (j : Json) : Option Logging := do
  match ← j.fields? ["level", "components", "json"] with
  | [level, components, json] =>
    some {
      level := ← Json.fill "info" Json.string? level
      components := ← Json.fill [] components? components
      json := ← Json.fill false Json.bool? json }
  | _ => none

end Logging

end StakeTrail
