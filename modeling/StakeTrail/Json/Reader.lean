import StakeTrail.Json.Basic
import StakeTrail.Json.Decimal

/-!
# Reading values out of JSON

A reader turns a JSON value into a value of another type or refuses it. A record is read from an object,
whose unknown members are ignored, or from an array that holds its fields in order; `fields?` gives the fields
that are there, and `fieldsOnce?` refuses an object that holds one of them twice, as a record does that is read
straight from a text. A field is read with `need`, which refuses an absent one, with `fill`, which puts a default in
its place, or with `allow`, which takes an absent field and null for none. A field of any form is read with `any?`.
-/

namespace StakeTrail.Json

variable {α : Type}

/-- Reads a text. -/
def string? : Json → Option String
  | .str s => some s
  | _ => none

/-- Reads a truth value. -/
def bool? : Json → Option Bool
  | .bool b => some b
  | _ => none

/-- Reads a natural number up to a bound. -/
def natUpTo? (bound : Nat) : Json → Option Nat
  | .int i => if 0 ≤ i ∧ i ≤ bound then some i.toNat else none
  | _ => none

/-- Reads an unsigned word. -/
def word? : Json → Option Nat := natUpTo? Word.top

/-- Reads an unsigned half word. -/
def halfWord? : Json → Option Nat := natUpTo? Word.topHalf

/-- Reads a signed word. -/
def signed? : Json → Option Int
  | .int i => if Word.fits i then some i else none
  | _ => none

/-- Reads a floating point number; decimal text is rounded to the nearest one. -/
def float? : Json → Option Float
  | .int i => some (if i < 0 then -(UInt64.ofNat i.natAbs).toFloat else (UInt64.ofNat i.natAbs).toFloat)
  | .real text =>
    let d := Decimal.ofText text
    let power := d.exponent - d.fraction.length
    let magnitude := Float.ofScientific (decimal (d.whole ++ d.fraction)) (power < 0) power.natAbs
    some (if d.negative then -magnitude else magnitude)
  | _ => none

mutual

/-- Reads any value. Its numbers have to stay within the doubles, and of two members with one name the last is kept. -/
def any? : Json → Option Json
  | .real text => if (Decimal.ofText text).isDouble then some (.real text) else none
  | .arr items => (anyItems? items).map .arr
  | .obj members => (anyMembers? members).map .obj
  | j => some j

/-- Reads the items of an array. -/
def anyItems? : List Json → Option (List Json)
  | [] => some []
  | j :: rest => do some ((← any? j) :: (← anyItems? rest))

/-- Reads the members of an object. -/
def anyMembers? : List (String × Json) → Option (List (String × Json))
  | [] => some []
  | (name, j) :: rest => do
    let j ← any? j
    let rest ← anyMembers? rest
    some (if rest.any (·.1 = name) then rest else (name, j) :: rest)

end

/-- Reads an array of values. -/
def list? (read : Json → Option α) : Json → Option (List α)
  | .arr items => items.mapM read
  | _ => none

/-- Reads a value or null. -/
def opt? (read : Json → Option α) : Json → Option (Option α)
  | .null => some none
  | j => (read j).map some

/-- The fields of a record, by name or by position; an absent field is none. -/
def fields? (names : List String) : Json → Option (List (Option Json))
  | .obj members => some (names.map (lookup · members))
  | .arr items =>
    if items.length ≤ names.length then
      some (items.map some ++ List.replicate (names.length - items.length) none)
    else none
  | _ => none

/-- The fields of a record whose names may not be there twice. -/
def fieldsOnce? (names : List String) (j : Json) : Option (List (Option Json)) :=
  match j with
  | .obj members =>
    if names.all fun name => members.countP (·.1 = name) ≤ 1 then j.fields? names else none
  | _ => j.fields? names

/-- Reads a field that has to be there. -/
def need (read : Json → Option α) : Option Json → Option α
  | some j => read j
  | none => none

/-- Reads a field that has a default. -/
def fill (default : α) (read : Json → Option α) : Option Json → Option α
  | some j => read j
  | none => some default

/-- Reads a field that may be absent or null. -/
def allow (read : Json → Option α) : Option Json → Option (Option α)
  | some j => opt? read j
  | none => some none

end StakeTrail.Json
