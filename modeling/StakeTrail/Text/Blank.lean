/-!
# Blanks

The white space of the Unicode standard, and text without the white space at its ends.
-/

namespace StakeTrail.Text

/-- Whether a character is white space. -/
def isBlank (c : Char) : Bool :=
  let n := c.toNat
  (9 ≤ n && n ≤ 13) || n == 32 || n == 0x85 || n == 0xA0 || n == 0x1680 || (0x2000 ≤ n && n ≤ 0x200A) ||
    n == 0x2028 || n == 0x2029 || n == 0x202F || n == 0x205F || n == 0x3000

/-- Characters without the blanks at either end. -/
def trimmed (cs : List Char) : List Char :=
  ((cs.dropWhile isBlank).reverse.dropWhile isBlank).reverse

/-- What follows `start`, if the characters begin with it. -/
def after? : List Char → List Char → Option (List Char)
  | [], rest => some rest
  | _ :: _, [] => none
  | a :: start, c :: rest => if a = c then after? start rest else none

/-- What stands before `ending`, if the characters end with it. -/
def before? (ending cs : List Char) : Option (List Char) :=
  (after? ending.reverse cs.reverse).map List.reverse

/-- Characters without the texts `start` at their beginning, as many as there are. -/
def skipAll (start : List Char) : Nat → List Char → List Char
  | 0, cs => cs
  | n + 1, cs =>
    match after? start cs with
    | some rest => skipAll start n rest
    | none => cs

end StakeTrail.Text
