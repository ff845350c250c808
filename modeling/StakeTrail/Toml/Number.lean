import StakeTrail.Json.Basic
import StakeTrail.Text.Moment
import StakeTrail.Word

/-!
# Numbers and moments of a settings file

An integer is decimal, with a sign and without a leading zero, or has another radix after `0x`, `0o` or `0b`;
it is a signed word. A real number has a fraction or an exponent, or is `inf` or `nan`; one that rounds to
positive infinity is refused. Single underscores may separate digits. A moment is a date, a time of
day, or both with or without an offset; it is read as an object whose one member is its text.
-/

namespace StakeTrail.Toml

open Text.Moment (number? past? monthDays)

/-! ## Numbers -/

/-- Digits and single underscores between them, after the first digit; those read so far come last first. -/
def digitsAfter (isDigit : Char → Bool) : List Char → List Char → Option (List Char × List Char)
  | acc, '_' :: c :: rest => if isDigit c then digitsAfter isDigit (c :: acc) rest else none
  | _, ['_'] => none
  | acc, c :: rest => if isDigit c then digitsAfter isDigit (c :: acc) rest else some (acc.reverse, c :: rest)
  | acc, [] => some (acc.reverse, [])

/-- At least one digit, with underscores between digits. -/
def digits? (isDigit : Char → Bool) : List Char → Option (List Char × List Char)
  | c :: rest => if isDigit c then digitsAfter isDigit [c] rest else none
  | [] => none

/-- The value of a digit. -/
def digitValue (c : Char) : Nat := if c.isDigit then c.toNat - 48 else c.toLower.toNat - 87

/-- Whether a character is a digit of a radix up to 16. -/
def isDigitOf (radix : Nat) (c : Char) : Bool :=
  (c.isDigit || ('a' ≤ c.toLower && c.toLower ≤ 'f')) && digitValue c < radix

/-- The number that digits spell. -/
def numeral (radix : Nat) (ds : List Char) : Nat := ds.foldl (fun n c => n * radix + digitValue c) 0

/-- A signed word. -/
def word? (i : Int) : Option Json := if Word.fits i then some (.int i) else none

/-- Reads the digits of a radix as a number. -/
def radixNumber? (radix : Nat) (cs : List Char) : Option (Json × List Char) := do
  let (ds, rest) ← digits? (isDigitOf radix) cs
  some (← word? (numeral radix ds), rest)

/-- The whole part of a number: zero, or digits of which the first is not zero. -/
def whole? : List Char → Option (List Char × List Char)
  | '0' :: rest => some (['0'], rest)
  | cs => digits? Char.isDigit cs

/-- The fraction of a number with its point, if there is one. -/
def fraction? : List Char → Option (List Char × List Char)
  | '.' :: rest => digits? Char.isDigit rest
  | cs => some ([], cs)

/-- The exponent of a number, if there is one. -/
def exponent? : List Char → Option (Option Int × List Char)
  | c :: rest =>
    if c = 'e' ∨ c = 'E' then
      match rest with
      | '-' :: rest => (digits? Char.isDigit rest).map fun (ds, rest) => (some (-(numeral 10 ds : Int)), rest)
      | '+' :: rest => (digits? Char.isDigit rest).map fun (ds, rest) => (some (numeral 10 ds : Int), rest)
      | rest => (digits? Char.isDigit rest).map fun (ds, rest) => (some (numeral 10 ds : Int), rest)
    else some (none, c :: rest)
  | [] => some (none, [])

/-- The least number that rounds to infinity in double precision. -/
def infinityBound : Nat := (1 <<< 54 - 1) <<< 970

/-- Whether a number, given by its digits and a power of ten, rounds to infinity. The outer cases are decided by
the place of the first digit. -/
def overflows (ds : List Char) (exponent : Int) : Bool :=
  let ds := ds.dropWhile (· == '0')
  let place := (ds.length : Int) + exponent
  if ds.isEmpty ∨ place ≤ 308 then false
  else if place > 309 then true
  else if exponent < 0 then infinityBound * Nat.pow 10 exponent.natAbs ≤ numeral 10 ds
  else infinityBound ≤ numeral 10 ds * Nat.pow 10 exponent.natAbs

/-- The text after the word for a number that has no digits. -/
def wordNumber? : List Char → Option (String × List Char)
  | 'i' :: 'n' :: 'f' :: rest => some ("inf", rest)
  | 'n' :: 'a' :: 'n' :: rest => some ("nan", rest)
  | _ => none

/-- Reads a decimal number whose sign was read. -/
def decimal? (negative : Bool) (cs : List Char) : Option (Json × List Char) := do
  let (whole, cs) ← whole? cs
  let (fraction, cs) ← fraction? cs
  let (exponent, rest) ← exponent? cs
  if fraction.isEmpty ∧ exponent.isNone then
    let n := numeral 10 whole
    some (← word? (if negative then -(n : Int) else n), rest)
  else
    let power := exponent.getD 0
    if !negative && overflows (whole ++ fraction) (power - fraction.length) then none
    else
      let sign := if negative then "-" else ""
      let point := if fraction.isEmpty then "" else "."
      let digits := String.ofList whole ++ point ++ String.ofList fraction
      some (.real s!"{sign}{digits}e{power}", rest)

/-- Reads a number. -/
def numberOf? (cs : List Char) : Option (Json × List Char) :=
  let signed (negative : Bool) (cs : List Char) :=
    match wordNumber? cs with
    | some (word, rest) => some (.real word, rest)
    | none => decimal? negative cs
  match cs with
  | '0' :: 'x' :: rest => radixNumber? 16 rest
  | '0' :: 'o' :: rest => radixNumber? 8 rest
  | '0' :: 'b' :: rest => radixNumber? 2 rest
  | '+' :: rest => signed false rest
  | '-' :: rest => signed true rest
  | cs => signed false cs

/-! ## Moments -/

/-- The name of the member that holds the text of a moment. -/
def momentName : String := "$__toml_private_datetime"

/-- A number of two digits at least. -/
def twoDigits (n : Nat) : String := if n < 10 then s!"0{n}" else toString n

/-- Whether a text starts with some digits and then a character. -/
def startsWith (digits : Nat) (mark : Char) (cs : List Char) : Bool :=
  match number? digits 0 cs with
  | some (_, rest) => rest.head? == some mark
  | none => false

/-- Reads a date as its text. -/
def date? (cs : List Char) : Option (String × List Char) := do
  let (year, cs) ← number? 4 0 cs
  let cs ← past? '-' cs
  let (month, cs) ← number? 2 0 cs
  let cs ← past? '-' cs
  let (day, rest) ← number? 2 0 cs
  if 1 ≤ month ∧ month ≤ 12 ∧ 1 ≤ day ∧ day ≤ monthDays year month then
    let years := String.ofList (List.replicate (4 - (toString year).length) '0') ++ toString year
    some (years ++ "-" ++ twoDigits month ++ "-" ++ twoDigits day, rest)
  else none

/-- Reads the fraction of a second as its text: nine places without the zeros at the end. -/
def secondFraction : List Char → String × List Char
  | '.' :: c :: rest =>
    let (ds, after) := (c :: rest).span Char.isDigit
    let kept := ((ds.take 9).reverse.dropWhile (· == '0')).reverse
    if ds.isEmpty then ("", '.' :: c :: rest)
    else (if kept.isEmpty then "" else "." ++ String.ofList kept, after)
  | cs => ("", cs)

/-- Reads a time of day as its text. -/
def time? (cs : List Char) : Option (String × List Char) := do
  let (hour, cs) ← number? 2 0 cs
  let cs ← past? ':' cs
  let (minute, cs) ← number? 2 0 cs
  let cs ← past? ':' cs
  let (second, cs) ← number? 2 0 cs
  if hour ≤ 23 ∧ minute ≤ 59 ∧ second ≤ 60 then
    let (fraction, rest) := secondFraction cs
    some (twoDigits hour ++ ":" ++ twoDigits minute ++ ":" ++ twoDigits second ++ fraction, rest)
  else none

/-- Reads the offset from universal time as its text, if there is one; an offset of nothing has a plus sign. -/
def offset? : List Char → Option (String × List Char)
  | c :: rest =>
    if c = 'Z' ∨ c = 'z' then some ("Z", rest)
    else if c = '+' ∨ c = '-' then do
      let (hours, rest) ← number? 2 0 rest
      let rest ← past? ':' rest
      let (minutes, rest) ← number? 2 0 rest
      if hours ≤ 23 ∧ minutes ≤ 59 then
        let sign := if c = '+' ∨ (hours = 0 ∧ minutes = 0) then "+" else "-"
        some (sign ++ twoDigits hours ++ ":" ++ twoDigits minutes, rest)
      else none
    else some ("", c :: rest)
  | [] => some ("", [])

/-- Reads a moment as its text: a date, which a time of day with its offset may follow, or a time of day. -/
def momentText? (cs : List Char) : Option (String × List Char) :=
  if startsWith 2 ':' cs then time? cs
  else do
    let (date, rest) ← date? cs
    match rest with
    | mark :: more =>
      if (mark = 'T' ∨ mark = 't' ∨ mark = ' ') ∧ startsWith 2 ':' more then do
        let (time, rest) ← time? more
        let (offset, rest) ← offset? rest
        some (date ++ "T" ++ time ++ offset, rest)
      else some (date, mark :: more)
    | [] => some (date, [])

/-- Reads a number or a moment. -/
def scalarNumber? (cs : List Char) : Option (Json × List Char) :=
  if startsWith 4 '-' cs ∨ startsWith 2 ':' cs then
    (momentText? cs).map fun (text, rest) => (.obj [(momentName, .str text)], rest)
  else numberOf? cs

end StakeTrail.Toml
