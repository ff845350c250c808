import StakeTrail.Action
import StakeTrail.Store.Tables

/-!
# The database

A database holds the tables and answers statements. Any statement may be refused: `refusal` says which ones
are, by their number, and why. A transaction that fails leaves the tables as they were; statements outside of
transactions stand for themselves.

* `Database.statement` runs one statement;
* `Database.transaction` runs several as one;
* `Database.close` makes every further statement fail.
-/

namespace StakeTrail.Store

/-- Why the database refuses a statement. -/
inductive Trouble
  | database
  | poolTimeout
  | poolClosed
  | io
  | decode
  | other
  deriving DecidableEq, Repr, Inhabited

/-- The label that counters carry. -/
def Trouble.label : Trouble → String
  | .database => "database"
  | .poolTimeout => "pool_timeout"
  | .poolClosed => "pool_closed"
  | .io => "io"
  | .decode => "decode"
  | .other => "other"

/-- Tables behind a connection. -/
structure Database where
  tables : Tables := {}
  /-- How many statements have come. -/
  statements : Nat := 0
  /-- Which statements are refused, by their number. -/
  refusal : Nat → Option Trouble := fun _ => none
  /-- The refusals so far, the latest first. -/
  refused : List Trouble := []
  deriving Inhabited

namespace Database

variable {α β : Type}

/-- Refuses every further statement. -/
def close (d : Database) : Database := { d with refusal := fun _ => some .poolClosed }

/-- Runs a statement on the tables, unless it is refused. -/
def statement (f : Tables → α × Tables) : Action Database α := fun d =>
  match d.refusal d.statements with
  | some trouble =>
    (.error (.storage foreign), { d with statements := d.statements + 1, refused := trouble :: d.refused })
  | none =>
    let (a, tables) := f d.tables
    (.ok a, { d with statements := d.statements + 1, tables })

/-- A statement that changes the tables. -/
def write (f : Tables → Tables) : Action Database Unit := statement fun t => ((), f t)

/-- A statement that only reads. -/
def query (f : Tables → α) : Action Database α := statement fun t => (f t, t)

/-- A statement that touches no table: it opens or ends a transaction, or takes a connection. -/
def contact : Action Database Unit := query fun _ => ()

/-- Runs statements between opening and ending a transaction. After a fault the tables are as before. -/
def transaction (body : Action Database α) : Action Database α := fun d =>
  let whole : Action Database α := do
    contact
    let a ← body
    contact
    pure a
  match whole d with
  | (.ok a, d') => (.ok a, d')
  | (.error e, d') => (.error e, { d' with tables := d.tables })

end Database

end StakeTrail.Store
