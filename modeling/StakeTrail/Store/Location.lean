import StakeTrail.Text.Blank

/-!
# Locations of databases

Where a database is, as a text such as `sqlite://stakeindex.db?mode=rwc`: a scheme, a name, and parameters that
say how the file is opened. Without a name, and under the name `:memory:`, the database lives in memory. A
location that does not have this form leads to no database.
-/

namespace StakeTrail.Store

open Text

/-- Where a database is. -/
inductive Location
  | memory
  /-- A file; one that is missing may be created, and one that is only read has to be a database already. -/
  | file (name : String) (creates readsOnly : Bool)
  deriving DecidableEq, Repr, Inhabited

namespace Location

/-- The scheme of a location. -/
def scheme : List Char := "sqlite:".toList

/-- Whether a character may stand in the host part of a location. -/
def isHostChar (c : Char) : Bool := 32 < c.toNat && !"#/:<>?@[\\]^|".toList.contains c

/-- Whether a name behind two slashes starts with a host: one without characters that separate parts, and with
digits behind a colon, if there is one. -/
def hasHost (cs : List Char) : Bool :=
  let authority := cs.takeWhile fun c => c != '/' && c != '?' && c != '#'
  let (host, gate) := authority.span (· != ':')
  host.all isHostChar &&
    match gate with
    | [] => true
    | _ :: digits => !host.isEmpty && !digits.isEmpty && digits.all Char.isDigit

/-- The parts of a text between separators. -/
def split (separator : Char) (cs : List Char) : List (List Char) :=
  cs.foldr (fun c parts =>
    match parts with
    | part :: rest => if c = separator then [] :: part :: rest else (c :: part) :: rest
    | [] => [[c]]) [[]]

/-- What a parameter does to a location. -/
def adjust? (l : Location) (parameter : List Char) : Option Location :=
  if parameter.isEmpty then some l
  else
    let (name, value) := parameter.span (· != '=')
    match String.ofList name, String.ofList (value.drop 1), l with
    | "mode", "rwc", .file name _ readsOnly => some (.file name true readsOnly)
    | "mode", "ro", .file name creates _ => some (.file name creates true)
    | "mode", "memory", _ => some .memory
    | "mode", value, l => if ["rw", "rwc", "ro"].contains value then some l else none
    | "cache", value, l => if ["private", "shared"].contains value then some l else none
    | "immutable", value, l => if ["true", "1", "false", "0"].contains value then some l else none
    | _, _, _ => none

/-- The location of a name without parameters. -/
def ofName (cs : List Char) : Location :=
  if cs.isEmpty ∨ cs = ":memory:".toList then .memory else .file (String.ofList cs) false false

/-- Text without the spaces and control characters at either end. -/
def bare (cs : List Char) : List Char :=
  let isPadding (c : Char) := decide (c.toNat ≤ 32)
  ((cs.dropWhile isPadding).reverse.dropWhile isPadding).reverse

/-- Reads a location; the scheme may be in letters of either case. -/
def parse? (text : String) : Option Location := do
  let cs := bare text.toList
  let rest ← after? scheme ((cs.take scheme.length).map Char.toLower ++ cs.drop scheme.length)
  let body ←
    match after? ['/', '/'] rest with
    | some body => if hasHost body then some body else none
    | none => some rest
  let (name, parameters) := body.span (· != '?')
  (split '&' (parameters.drop 1)).foldlM adjust? (ofName name)

end Location

end StakeTrail.Store
