import StakeTrail.Toml.Number
import StakeTrail.Toml.Quoted
import StakeTrail.Toml.Tree

/-!
# Settings files

A settings file is a list of statements, one a line: a key with its value, the header of a table, or the header
of one more table in a series. `statements?` reads them and `Statement.effect?` says what each does to the
tables; `parse` does both and gives the file as one object.
-/

namespace StakeTrail.Toml

/-- The number of parts that a key has less than, and the number of levels that values have less than. -/
def levelBound : Nat := 80

/-! ## Keys and values -/

/-- Whether a character may stand in a key without quotes. -/
def isBare (c : Char) : Bool := c.isAlphanum || c == '-' || c == '_'

/-- Reads one part of a key. -/
def keyPart? (cs : List Char) : Option (String × List Char) :=
  match cs with
  | [] => none
  | c :: _ =>
    if c = '\x22' ∨ c = '\'' then quoted? cs
    else
      let (name, rest) := cs.span isBare
      if name.isEmpty then none else some (String.ofList name, rest)

/-- Reads the parts of a key with the blanks around them; the parts read so far come last first. -/
def keyParts? : Nat → List String → List Char → Option (Key × List Char)
  | 0, _, _ => none
  | fuel + 1, acc, cs => do
    let (part, rest) ← keyPart? (skipBlanks cs)
    match skipBlanks rest with
    | '.' :: rest => keyParts? fuel (part :: acc) rest
    | rest => (Key.ofReversed? (part :: acc)).map fun key => (key, rest)

/-- Reads a key with the blanks around it. -/
def key? (cs : List Char) : Option (Key × List Char) := do
  let (key, rest) ← keyParts? (cs.length + 1) [] cs
  if key.parts.length < levelBound then some (key, rest) else none

/-- The text after a keyword. -/
def keyword? (word : String) (value : Json) (cs : List Char) : Option (Json × List Char) :=
  if cs.take word.length = word.toList then some (value, cs.drop word.length) else none

mutual

/-- Reads a value; `depth` levels may still be opened. -/
def value? : Nat → Nat → List Char → Option (Json × List Char)
  | 0, _, _ => none
  | _ + 1, _, [] => none
  | fuel + 1, depth, c :: rest =>
    if c = '\x22' ∨ c = '\'' then (string? (c :: rest)).map fun (s, rest) => (.str s, rest)
    else if c = '[' then
      match depth with
      | 0 => none
      | depth + 1 => items? fuel depth [] rest
    else if c = '\x7b' then
      match depth with
      | 0 => none
      | depth + 1 =>
        match skipBlanks rest with
        | '\x7d' :: rest => some (.obj [], rest)
        | rest => pairs? fuel depth [] rest
    else if c = 't' then keyword? "true" (.bool true) (c :: rest)
    else if c = 'f' then keyword? "false" (.bool false) (c :: rest)
    else scalarNumber? (c :: rest)

/-- Reads the items of an array up to its bracket; those read so far come last first. -/
def items? : Nat → Nat → List Json → List Char → Option (Json × List Char)
  | 0, _, _, _ => none
  | fuel + 1, depth, acc, cs =>
    match skipLines cs.length cs with
    | ']' :: rest => some (.arr acc.reverse, rest)
    | cs => do
      let (j, rest) ← value? fuel depth cs
      match skipLines rest.length rest with
      | ',' :: rest => items? fuel depth (j :: acc) rest
      | ']' :: rest => some (.arr (j :: acc).reverse, rest)
      | _ => none

/-- Reads the pairs of a table in braces up to its brace. -/
def pairs? : Nat → Nat → Members → List Char → Option (Json × List Char)
  | 0, _, _, _ => none
  | fuel + 1, depth, members, cs => do
    let (key, rest) ← key? cs
    match rest with
    | '=' :: rest => do
      let (j, rest) ← value? fuel depth (skipBlanks rest)
      let members ← assign [] key j members
      match skipBlanks rest with
      | ',' :: rest => pairs? fuel depth members rest
      | '\x7d' :: rest => some (.obj (membersToJson members), rest)
      | _ => none
    | _ => none

end

/-! ## Statements -/

/-- A line of a settings file. -/
inductive Statement
  | pair (key : Key) (value : Json)
  | table (key : Key)
  | member (key : Key)
  deriving Inhabited

/-- Reads a statement without its line end. -/
def statement? : List Char → Option (Statement × List Char)
  | '[' :: '[' :: rest => do
    let (key, rest) ← key? rest
    match rest with
    | ']' :: ']' :: rest => some (.member key, rest)
    | _ => none
  | '[' :: rest => do
    let (key, rest) ← key? rest
    match rest with
    | ']' :: rest => some (.table key, rest)
    | _ => none
  | cs => do
    let (key, rest) ← key? cs
    match rest with
    | '=' :: rest => do
      let (j, rest) ← value? (2 * rest.length + 2) (levelBound - 1) (skipBlanks rest)
      some (.pair key j, rest)
    | _ => none

/-- Reads the statements of a text; those read so far come last first. -/
def statements? : Nat → List Statement → List Char → Option (List Statement)
  | 0, _, _ => none
  | fuel + 1, acc, cs =>
    match skipLines cs.length cs with
    | [] => some acc.reverse
    | cs => do
      let (s, rest) ← statement? cs
      statements? fuel (s :: acc) (← lineEnd? rest)

/-- What a statement does to the tables, and the header under which it leaves the next one. -/
def Statement.effect? (current : List String) (root : Members) : Statement → Option (List String × Members)
  | .pair key value => (assign current key value root).map (current, ·)
  | .table key => (openTable key root).map (key.parts, ·)
  | .member key => (openMember key root).map (key.parts, ·)

/-- What statements do to the tables. -/
def build? : List String → Members → List Statement → Option Members
  | _, root, [] => some root
  | current, root, s :: rest => do
    let (current, root) ← s.effect? current root
    build? current root rest

/-- Text without the mark of its encoding in front. -/
def skipMark : List Char → List Char
  | '\ufeff' :: rest => rest
  | cs => cs

/-- Reads a settings file. -/
def parse (text : String) : Option Json := do
  let cs := skipMark text.toList
  let root ← build? [] [] (← statements? (cs.length + 1) [] cs)
  some (.obj (membersToJson root))

end StakeTrail.Toml
