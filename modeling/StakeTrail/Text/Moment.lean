/-!
# Moments in text

A moment is written as date, time of day and offset from universal time, for instance
`2025-01-19T15:00:00Z`. The separator may be a letter of either case or a space; a fraction of a second is
dropped, a leap second counts as the second before it, and the sign of an offset may be U+2212.
`Moment.parse?` gives Unix seconds.
-/

namespace StakeTrail.Text.Moment

/-- The number that the first `n` characters spell in decimal digits. -/
def number? : Nat → Nat → List Char → Option (Nat × List Char)
  | 0, acc, cs => some (acc, cs)
  | n + 1, acc, c :: rest => if c.isDigit then number? n (acc * 10 + (c.toNat - 48)) rest else none
  | _ + 1, _, [] => none

/-- What follows one character. -/
def past? (c : Char) : List Char → Option (List Char)
  | d :: rest => if c = d then some rest else none
  | [] => none

/-- Whether a year has a leap day. -/
def isLeap (year : Nat) : Bool := year % 4 == 0 && (year % 100 != 0 || year % 400 == 0)

/-- The days of a month. -/
def monthDays (year month : Nat) : Nat :=
  match month with
  | 2 => if isLeap year then 29 else 28
  | 4 | 6 | 9 | 11 => 30
  | _ => 31

/-- The days from the start of year 0 to the start of a year. -/
def daysBeforeYear (year : Nat) : Nat := 365 * year + (year + 3) / 4 - (year + 99) / 100 + (year + 399) / 400

/-- The days of a year before a month. -/
def daysBeforeMonth (year month : Nat) : Nat :=
  (List.range (month - 1)).foldl (fun days m => days + monthDays year (m + 1)) 0

/-- Days since 1970-01-01. -/
def epochDay (year month day : Nat) : Int :=
  (daysBeforeYear year + daysBeforeMonth year month + day : Nat) - (daysBeforeYear 1970 + 1 : Nat)

/-- Reads a fraction of a second, which is dropped. -/
def fraction? : List Char → Option (List Char)
  | '.' :: c :: rest => if c.isDigit then some (rest.dropWhile Char.isDigit) else none
  | '.' :: [] => none
  | cs => some cs

/-- Reads the offset from universal time in seconds. -/
def offset? (cs : List Char) : Option (Int × List Char) :=
  match cs with
  | [] => none
  | c :: rest =>
    if c = 'Z' ∨ c = 'z' then some (0, rest)
    else if c = '+' ∨ c = '-' ∨ c = Char.ofNat 0x2212 then do
      let (hours, rest) ← number? 2 0 rest
      let rest ← past? ':' rest
      let (minutes, rest) ← number? 2 0 rest
      if hours ≤ 23 ∧ minutes ≤ 59 then
        let seconds : Int := hours * 3600 + minutes * 60
        some (if c = '+' then seconds else -seconds, rest)
      else none
    else none

/-- Reads a moment as Unix seconds. -/
def parse? (text : String) : Option Int := do
  let (year, cs) ← number? 4 0 text.toList
  let cs ← past? '-' cs
  let (month, cs) ← number? 2 0 cs
  let cs ← past? '-' cs
  let (day, cs) ← number? 2 0 cs
  let cs ←
    match cs with
    | c :: rest => if c = 'T' ∨ c = 't' ∨ c = ' ' then some rest else none
    | [] => none
  let (hour, cs) ← number? 2 0 cs
  let cs ← past? ':' cs
  let (minute, cs) ← number? 2 0 cs
  let cs ← past? ':' cs
  let (second, cs) ← number? 2 0 cs
  let cs ← fraction? cs
  let (offset, cs) ← offset? cs
  if cs.isEmpty ∧ 1 ≤ month ∧ month ≤ 12 ∧ 1 ≤ day ∧ day ≤ monthDays year month ∧ hour ≤ 23 ∧ minute ≤ 59 ∧
      second ≤ 60 then
    some (epochDay year month day * 86400 + (hour * 3600 + minute * 60 + min second 59 : Nat) - offset)
  else none

end StakeTrail.Text.Moment
