/-!
# Integers in text

A numeral is a list of digits with at most one sign. Digits are taken from the left and the value is
checked against its bound after each of them, so the first of "not a digit" and "out of range" to be met
is the one reported.

* `natural` reads an unsigned number in any radix up to 16;
* `integer` reads a signed decimal word;
* `large` reads a decimal number of any size, in which underscores may separate digits.
-/

namespace StakeTrail.Text.Numeral

/-- Why a text is no numeral. -/
inductive Flaw
  | empty
  | digit
  | tooLarge
  | tooSmall
  deriving DecidableEq, Repr, Inhabited

/-- The wording of a flaw. -/
def Flaw.message : Flaw → String
  | .empty => "cannot parse integer from empty string"
  | .digit => "invalid digit found in string"
  | .tooLarge => "number too large to fit in target type"
  | .tooSmall => "number too small to fit in target type"

/-- The value of a digit below the radix; letters of either case follow the nine. -/
def digit? (radix : Nat) (c : Char) : Option Nat :=
  let n := c.toNat
  let v :=
    if 48 ≤ n ∧ n ≤ 57 then some (n - 48)
    else if 97 ≤ n ∧ n ≤ 102 then some (n - 87)
    else if 65 ≤ n ∧ n ≤ 70 then some (n - 55)
    else none
  v.filter (· < radix)

/-- Digits continue the value `acc`; a value above `bound` is refused with `excess`. -/
def digits (radix bound : Nat) (excess : Flaw) : Nat → List Char → Except Flaw Nat
  | acc, [] => .ok acc
  | acc, c :: rest =>
    match digit? radix c with
    | none => .error .digit
    | some d =>
      if acc * radix + d ≤ bound then digits radix bound excess (acc * radix + d) rest else .error excess

/-- Reads an unsigned number up to `bound`; one leading plus sign is allowed. -/
def natural (radix bound : Nat) (s : String) : Except Flaw Nat :=
  match s.toList with
  | [] => .error .empty
  | '+' :: [] => .error .digit
  | '+' :: rest => digits radix bound .tooLarge 0 rest
  | cs => digits radix bound .tooLarge 0 cs

/-- Reads a signed decimal number from `-below` to `above`; one leading sign is allowed. -/
def integer (below above : Nat) (s : String) : Except Flaw Int :=
  match s.toList with
  | [] => .error .empty
  | '+' :: [] => .error .digit
  | '-' :: [] => .error .digit
  | '-' :: rest => (digits 10 below .tooSmall 0 rest).map fun n => -(n : Int)
  | '+' :: rest => (digits 10 above .tooLarge 0 rest).map fun n => (n : Int)
  | cs => (digits 10 above .tooLarge 0 cs).map fun n => (n : Int)

/-- Digits of any number, underscores skipped. -/
def largeDigits : Nat → List Char → Except Flaw Nat
  | acc, [] => .ok acc
  | acc, '_' :: rest => largeDigits acc rest
  | acc, c :: rest =>
    match digit? 10 c with
    | none => .error .digit
    | some d => largeDigits (acc * 10 + d) rest

/-- Reads a decimal number of any size. A plus sign may lead, and an underscore may stand anywhere
but first. -/
def large (s : String) : Except Flaw Nat :=
  let body :=
    match s.toList with
    | '+' :: '+' :: rest => '+' :: '+' :: rest
    | '+' :: rest => rest
    | cs => cs
  match body with
  | [] => .error .empty
  | '_' :: _ => .error .digit
  | cs => largeDigits 0 cs

end StakeTrail.Text.Numeral
