import StakeTrail.Word

/-!
# Decimal numbers

The text of a number, taken apart, and whether a double comes near it. As many digits as fit into a word make up the
significand, and the others only count for the exponent; then the significand and the power of ten are rounded, and
their product is.
-/

namespace StakeTrail.Json

/-- The number that decimal digits spell. -/
def decimal (ds : List Char) : Nat := ds.foldl (fun n c => n * 10 + (c.toNat - 48)) 0

/-- The parts of a number's text. -/
structure Decimal where
  negative : Bool
  /-- The digits in front of the point. -/
  whole : List Char
  /-- The digits behind it. -/
  fraction : List Char
  exponent : Int

namespace Decimal

/-- Takes the text of a number apart. -/
def ofText (text : String) : Decimal :=
  let (negative, cs) :=
    match text.toList with
    | '-' :: rest => (true, rest)
    | rest => (false, rest)
  let (whole, rest) := cs.span Char.isDigit
  let (fraction, rest) :=
    match rest with
    | '.' :: rest => rest.span Char.isDigit
    | rest => ([], rest)
  let exponent : Int :=
    match rest with
    | _ :: '-' :: ds => -(decimal ds : Int)
    | _ :: '+' :: ds => decimal ds
    | _ :: ds => decimal ds
    | [] => 0
  { negative, whole, fraction, exponent }

/-- Appends digits to a word as long as it stays one; gives it and the number of digits that it took. -/
def takeDigits (n : Nat) : List Char → Nat × Nat
  | [] => (n, 0)
  | c :: rest =>
    let next := n * 10 + (c.toNat - 48)
    if next ≤ Word.top then
      let (n, taken) := takeDigits next rest
      (n, taken + 1)
    else (n, 0)

/-- The significand, which is a word, and the power of ten that goes with it. -/
def scaled (d : Decimal) : Nat × Int :=
  let (n, whole) := takeDigits 0 d.whole
  let (n, fraction) := takeDigits n d.fraction
  (n, d.exponent + (d.whole.length - whole : Nat) - fraction)

/-- A natural number rounded to 53 binary digits, to the even one of two that are as near. -/
def rounded (n : Nat) : Nat :=
  let unit := 1 <<< (n.log2 - 52)
  let below := n / unit
  let rest := 2 * (n % unit)
  if unit < rest ∨ unit = rest ∧ below % 2 = 1 then (below + 1) * unit else below * unit

/-- The least number that is rounded to infinity: half a unit above the greatest double. -/
def limit : Nat := (1 <<< 1024) - (1 <<< 970)

/-- Whether a number is read as a double that is finite. -/
def isDouble (d : Decimal) : Bool :=
  let (n, power) := d.scaled
  if n = 0 ∨ power < 0 then true
  else if power ≤ 308 then rounded n * rounded (Nat.pow 10 power.toNat) < limit
  else false

end Decimal

end StakeTrail.Json
