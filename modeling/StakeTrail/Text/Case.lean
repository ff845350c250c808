import StakeTrail.Text.Case.Table

/-!
# Lower case

`lower` puts a text in lower case by the Unicode standard: each letter by itself, a dotted capital I as two
characters, and a capital sigma by its place in the word. On ASCII text it agrees with `Char.toLower`.
-/

namespace StakeTrail.Text.Case

/-- The small letter of a run's capital. -/
def Run.small? (r : Run) (n : Nat) : Option Nat :=
  if r.first ≤ n ∧ n ≤ r.last ∧ (n - r.first) % r.step = 0 then some (n + r.shift).toNat else none

/-- Whether one of the ranges holds a code point. -/
def within (ranges : List (Nat × Nat)) (n : Nat) : Bool := ranges.any fun r => r.1 ≤ n && n ≤ r.2

/-- The small form of a character outside any word. -/
def small (c : Char) : List Char :=
  let n := c.toNat
  if n < 128 then [c.toLower]
  else if n = 0x130 then ['i', Char.ofNat 0x307]
  else
    match lowerRuns.findSome? (·.small? n) with
    | some m => [Char.ofNat m]
    | none => [c]

/-- Whether the first character that is not passed over has a letter case. -/
def meetsLetter (cs : List Char) : Bool :=
  match cs.find? fun c => !within ignorableRanges c.toNat with
  | some c => within casedRanges c.toNat
  | none => false

/-- Lower case of the characters that follow `seen`, the latest of which comes first. -/
def lowerAfter (seen : List Char) : List Char → List Char
  | [] => []
  | c :: rest =>
    let form :=
      if c.toNat = 0x3A3 then
        if meetsLetter seen && !meetsLetter rest then [Char.ofNat 0x3C2] else [Char.ofNat 0x3C3]
      else small c
    form ++ lowerAfter (c :: seen) rest

/-- A text in lower case. -/
def lower (s : String) : String := String.ofList (lowerAfter [] s.toList)

end StakeTrail.Text.Case
