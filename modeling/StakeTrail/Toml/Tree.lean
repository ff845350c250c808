import StakeTrail.Json.Basic
import StakeTrail.Keyed

/-!
# Tables of a settings file

A settings file defines tables in three ways, and the way decides what may be added to a table later.

* `change` follows a path of keys and edits the table at its end; tables that are not there yet come into being
  on the way.
* `assign` gives a key its value. A key with dots defines the tables in front of its last part, and no table
  is defined both by dots and by a header.
* `openTable` is the header of a table and `openMember` that of one more table in a series.
* `toJson` forgets how the tables came into being.
-/

namespace StakeTrail.Toml

/-- How a table came into being. -/
inductive Origin
  /-- Under a header of its own. -/
  | header
  /-- On the way to the header of another table. -/
  | passage
  /-- By a key with dots. -/
  | dotted
  deriving DecidableEq, Repr, Inhabited

/-- What a key of a table stands for. -/
inductive Entry
  /-- A value; nothing is added to it later. -/
  | value (json : Json)
  | table (origin : Origin) (members : List (String × Entry))
  /-- Tables of one name, the last one first. -/
  | series (tables : List (List (String × Entry)))
  deriving Inhabited

/-- The content of a table. -/
abbrev Members := List (String × Entry)

/-- A key: its last part, and the parts in front of it. -/
structure Key where
  front : List String
  last : String
  deriving DecidableEq, Repr, Inhabited

/-- The key with some parts; the last part comes first. -/
def Key.ofReversed? : List String → Option Key
  | [] => none
  | last :: front => some ⟨front.reverse, last⟩

/-- The parts of a key. -/
def Key.parts (k : Key) : List String := k.front ++ [k.last]

/-- What a key stands for. -/
def meaning? (name : String) (members : Members) : Option Entry := (Keyed.get? Prod.fst name members).map (·.2)

/-- Edits the table at the end of a path. A table that is missing on the way gets the given origin; in a series
the path goes through the last table, and dots do not go through a table with a header. -/
def change (origin : Origin) (edit : Origin → Members → Option Members) :
    List String → Origin → Members → Option Members
  | [], own, members => edit own members
  | name :: path, _, members => do
    let entry ←
      match meaning? name members with
      | none => (change origin edit path origin []).map (Entry.table origin)
      | some (.table own inner) =>
        if origin = .dotted ∧ own = .header then none
        else (change origin edit path own inner).map (Entry.table own)
      | some (.series (newest :: older)) =>
        (change origin edit path .header newest).map fun newest => Entry.series (newest :: older)
      | some _ => none
    some (Keyed.put Prod.fst (name, entry) members)

/-- Gives a name its value in the table that a key ends in. A table that dots define takes keys with dots only,
and any other table takes keys without. -/
def store (name : String) (value : Json) (dotted : Bool) (own : Origin) (members : Members) : Option Members :=
  if decide (own = .dotted) = dotted ∧ (meaning? name members).isNone then
    some (Keyed.put Prod.fst (name, .value value) members)
  else none

/-- Gives a key its value, seen from the table under the header `current`. -/
def assign (current : List String) (key : Key) (value : Json) (root : Members) : Option Members :=
  let edit own members := change .dotted (store key.last value !key.front.isEmpty) key.front own members
  change .passage edit current .header root

/-- The header of a table. A table on the way to an earlier header may get its own header once. -/
def openTable (key : Key) (root : Members) : Option Members :=
  let edit (_ : Origin) (members : Members) :=
    match meaning? key.last members with
    | none => some (Keyed.put Prod.fst (key.last, .table .header []) members)
    | some (.table .passage inner) => some (Keyed.put Prod.fst (key.last, .table .header inner) members)
    | some _ => none
  change .passage edit key.front .header root

/-- The header of one more table in a series. -/
def openMember (key : Key) (root : Members) : Option Members :=
  let edit (_ : Origin) (members : Members) :=
    match meaning? key.last members with
    | none => some (Keyed.put Prod.fst (key.last, .series [[]]) members)
    | some (.series tables) => some (Keyed.put Prod.fst (key.last, .series ([] :: tables)) members)
    | some _ => none
  change .passage edit key.front .header root

mutual

/-- An entry as a value. -/
def Entry.toJson : Entry → Json
  | .value j => j
  | .table _ members => .obj (membersToJson members)
  | .series tables => .arr (tablesToJson tables).reverse

/-- The content of a table as the members of an object. -/
def membersToJson : List (String × Entry) → List (String × Json)
  | [] => []
  | (name, entry) :: rest => (name, entry.toJson) :: membersToJson rest

/-- Tables as values, in the same order. -/
def tablesToJson : List (List (String × Entry)) → List Json
  | [] => []
  | members :: rest => .obj (membersToJson members) :: tablesToJson rest

end

end StakeTrail.Toml
