import StakeTrail.Json.Reader

/-!
# Schedules

When an indexer works, and how much at a time. A schedule is written as a record whose fields all have
defaults.
-/

namespace StakeTrail.Indexing

/-- When an indexer works. -/
structure Schedule where
  /-- Milliseconds between two looks at the chain. -/
  interval : Nat := 10000
  /-- The number of new heights below which nothing is done. -/
  lag : Nat := 10
  /-- The greatest number of heights committed at once. -/
  batch : Nat := 100
  deriving DecidableEq, Repr, Inhabited

namespace Schedule

/-- Reads a schedule. -/
def ofJson? (j : Json) : Option Schedule := do
  match ← j.fields? ["poll_interval_ms", "lag", "batch_size"] with
  | [interval, lag, batch] =>
    some {
      interval := ← Json.fill 10000 Json.word? interval
      lag := ← Json.fill 10 Json.word? lag
      batch := ← Json.fill 100 Json.word? batch }
  | _ => none

/-- Writes a schedule. -/
def toJson (s : Schedule) : Json :=
  .obj [("poll_interval_ms", .nat s.interval), ("lag", .nat s.lag), ("batch_size", .nat s.batch)]

end Schedule

/-- What an indexer's loop is doing. -/
inductive Activity
  | idle
  | running
  | indexing
  | stopped
  deriving DecidableEq, Repr, Inhabited

namespace Activity

/-- Every activity. -/
def all : List Activity := [idle, running, indexing, stopped]

/-- The name in records. -/
def name : Activity → String
  | idle => "Idle"
  | running => "Running"
  | indexing => "Indexing"
  | stopped => "Stopped"

/-- The word in messages. -/
def word : Activity → String
  | idle => "idle"
  | running => "running"
  | indexing => "indexing"
  | stopped => "stopped"

/-- The activity with a name. -/
def ofName? (text : String) : Option Activity := all.find? fun a => a.name == text

end Activity

end StakeTrail.Indexing
