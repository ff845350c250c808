import StakeTrail.Stake.Delta

/-!
# The running total stake

A ledger is the total stake before a batch. `apply` adds the changes of a batch in ascending order of height
and gives one point per block second; `applyByBlock` does the same and names the block of each point. Heights
that follow each other within one second leave the value of the last of them.
-/

namespace StakeTrail.Stake

/-- The total stake at a moment. -/
structure Point where
  /-- Unix seconds. -/
  time : Int
  amount : Int
  deriving DecidableEq, Repr, Inhabited

/-- The total stake after a block. -/
structure HistoryPoint where
  block : Nat
  time : Int
  amount : Int
  deriving DecidableEq, Repr, Inhabited

/-- Where the series start. -/
structure Genesis where
  /-- Gwei. -/
  amount : Int
  /-- Unix seconds. -/
  time : Int
  /-- The first block of the history. -/
  block : Nat
  deriving DecidableEq, Repr, Inhabited

namespace Genesis

/-- Eight million gwei at 2025-01-19T15:00:00Z, block 1. -/
def standard : Genesis := ⟨8000000, 1737298800, 1⟩

/-- The first point of the running total. -/
def point (g : Genesis) : Point := ⟨g.time, g.amount⟩

/-- The first point of the history. -/
def historyPoint (g : Genesis) : HistoryPoint := ⟨g.block, g.time, g.amount⟩

end Genesis

/-- The running total. -/
structure Ledger where
  total : Int
  deriving DecidableEq, Repr, Inhabited

namespace Ledger

/-- Adds a row at the end, over the last one when they share a second. -/
def pushHistory (row : HistoryPoint) (rows : List HistoryPoint) : List HistoryPoint :=
  match rows.getLast? with
  | some last => if last.time = row.time then rows.dropLast ++ [row] else rows ++ [row]
  | none => [row]

/-- Adds a point at the end, over the last one when they share a second. -/
def pushPoint (point : Point) (points : List Point) : List Point :=
  match points.getLast? with
  | some last => if last.time = point.time then points.dropLast ++ [point] else points ++ [point]
  | none => [point]

/-- The block time and the new total of a height: a missing time is met before an overflow. -/
def step (ledger : Ledger) (times : Times) (height : Nat) (delta : Int) : Except Fault (Int × Ledger) :=
  match Keyed.get? Prod.fst height times with
  | none => .error (.missingBlockTime height)
  | some (_, time) =>
    match Word.add? ledger.total delta with
    | none => .error (.decode (.totalOverflow height))
    | some total => .ok (time, ⟨total⟩)

/-- Continues `points` with the changes. -/
def applyOnto (times : Times) (points : List Point) :
    Ledger → Deltas → Except Fault (Ledger × List Point)
  | ledger, [] => .ok (ledger, points)
  | ledger, (height, delta) :: rest =>
    match ledger.step times height delta with
    | .error e => .error e
    | .ok (time, next) => applyOnto times (pushPoint ⟨time, next.total⟩ points) next rest

/-- The ledger after the changes, and a point per block second. -/
def apply (ledger : Ledger) (deltas : Deltas) (times : Times) : Except Fault (Ledger × List Point) :=
  applyOnto times [] ledger deltas

/-- Continues `rows` with the changes. -/
def applyByBlockOnto (times : Times) (rows : List HistoryPoint) :
    Ledger → Deltas → Except Fault (Ledger × List HistoryPoint)
  | ledger, [] => .ok (ledger, rows)
  | ledger, (height, delta) :: rest =>
    match ledger.step times height delta with
    | .error e => .error e
    | .ok (time, next) => applyByBlockOnto times (pushHistory ⟨height, time, next.total⟩ rows) next rest

/-- The ledger after the changes, and a row per block second. -/
def applyByBlock (ledger : Ledger) (deltas : Deltas) (times : Times) :
    Except Fault (Ledger × List HistoryPoint) :=
  applyByBlockOnto times [] ledger deltas

end Ledger

end StakeTrail.Stake
