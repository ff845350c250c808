import StakeTrail.Text.Hex

/-!
# Base64

Bytes as text in the standard alphabet. Every group has four characters, the last filled up with the padding
sign; bits that belong to no byte are zero.
-/

namespace StakeTrail.Text.Base64

/-- The value of a character of the alphabet. -/
def sextet? (c : Char) : Option Nat :=
  let n := c.toNat
  if 65 ≤ n ∧ n ≤ 90 then some (n - 65)
  else if 97 ≤ n ∧ n ≤ 122 then some (n - 71)
  else if 48 ≤ n ∧ n ≤ 57 then some (n + 4)
  else if n = 43 then some 62
  else if n = 47 then some 63
  else none

/-- The last group of a text. -/
def lastGroup? (a b c d : Char) : Option Bytes := do
  let p ← sextet? a
  let q ← sextet? b
  if d = '=' then
    if c = '=' then
      if q % 16 = 0 then some [UInt8.ofNat (p * 4 + q / 16)] else none
    else do
      let r ← sextet? c
      if r % 4 = 0 then some [UInt8.ofNat (p * 4 + q / 16), UInt8.ofNat (q % 16 * 16 + r / 4)] else none
  else do
    let r ← sextet? c
    let s ← sextet? d
    some [UInt8.ofNat (p * 4 + q / 16), UInt8.ofNat (q % 16 * 16 + r / 4), UInt8.ofNat (r % 4 * 64 + s)]

/-- Reads groups of four characters; only the last one may be filled up. -/
def groups? : List Char → Option Bytes
  | [] => some []
  | [a, b, c, d] => lastGroup? a b c d
  | a :: b :: c :: d :: rest => do
    let p ← sextet? a
    let q ← sextet? b
    let r ← sextet? c
    let s ← sextet? d
    let bytes ← groups? rest
    some (UInt8.ofNat (p * 4 + q / 16) :: UInt8.ofNat (q % 16 * 16 + r / 4) :: UInt8.ofNat (r % 4 * 64 + s) ::
      bytes)
  | _ => none

/-- Reads bytes. -/
def decode? (text : String) : Option Bytes := groups? text.toList

end StakeTrail.Text.Base64
