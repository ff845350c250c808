/-!
# Hexadecimal text

`encode` writes two lower-case digits a byte, and `decode` reads them back in any letter case.
The text is refused for an odd number of bytes before any digit is looked at.
-/

namespace StakeTrail

/-- A string of bytes. -/
abbrev Bytes := List UInt8

namespace Text.Hex

/-- Why a text is no hexadecimal text. A digit is refused as the byte found at a byte position. -/
inductive Flaw
  | oddLength
  | digit (found : UInt8) (position : Nat)
  deriving DecidableEq, Repr, Inhabited

/-- A byte as the character of that code point, quoted the way a diagnostic quotes it: quotes,
backslashes and control characters are escaped, and so are the two blanks above ASCII. -/
def quotedByte (b : UInt8) : String :=
  let n := b.toNat
  let body :=
    if n = 0 then "\\0"
    else if n = 9 then "\\t"
    else if n = 10 then "\\n"
    else if n = 13 then "\\r"
    else if n = 39 then "\\'"
    else if n = 92 then "\\\\"
    else if n < 32 ∨ (127 ≤ n ∧ n ≤ 160) ∨ n = 173 then
      "\\u\x7b" ++ String.ofList (Nat.toDigits 16 n) ++ "\x7d"
    else String.singleton (Char.ofNat n)
  "'" ++ body ++ "'"

/-- The wording of a flaw. -/
def Flaw.message : Flaw → String
  | .oddLength => "Odd number of digits"
  | .digit found position => "Invalid character " ++ quotedByte found ++ s!" at position {position}"

/-- The value of a digit's code, in either letter case. -/
def nibble? (b : UInt8) : Option Nat :=
  let n := b.toNat
  if 48 ≤ n ∧ n ≤ 57 then some (n - 48)
  else if 97 ≤ n ∧ n ≤ 102 then some (n - 87)
  else if 65 ≤ n ∧ n ≤ 70 then some (n - 55)
  else none

/-- The lower-case digit of a value below sixteen. -/
def digit (n : Nat) : Char := if n < 10 then Char.ofNat (48 + n) else Char.ofNat (87 + n)

/-- The digits of some bytes. -/
def encodeChars : Bytes → List Char
  | [] => []
  | b :: rest => digit (b.toNat / 16) :: digit (b.toNat % 16) :: encodeChars rest

/-- Two lower-case digits a byte. -/
def encode (bytes : Bytes) : String := String.ofList (encodeChars bytes)

/-- Reads pairs of digit codes, of which the first stands at `position`. -/
def pairs (position : Nat) : Bytes → Except Flaw Bytes
  | [] => .ok []
  | [_] => .error .oddLength
  | a :: b :: rest =>
    match nibble? a, nibble? b with
    | none, _ => .error (.digit a position)
    | some _, none => .error (.digit b (position + 1))
    | some h, some l => (pairs (position + 2) rest).map (UInt8.ofNat (16 * h + l) :: ·)

/-- The bytes of a text in UTF-8. -/
def utf8 (s : String) : Bytes := s.toUTF8.toList

/-- Reads pairs of digits. -/
def decode (s : String) : Except Flaw Bytes :=
  let codes := utf8 s
  if codes.length % 2 = 1 then .error .oddLength else pairs 0 codes

end Text.Hex

end StakeTrail
