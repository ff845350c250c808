import StakeTrail.Json.Basic

/-!
# Writing JSON

`Json.render` writes a value on one line. Control characters, the quote and the backslash are escaped; all
else stands for itself.
-/

namespace StakeTrail.Json

/-- Four hexadecimal digits. -/
def hexQuad (n : Nat) : List Char :=
  [n / 4096 % 16, n / 256 % 16, n / 16 % 16, n % 16].map fun d => Nat.digitChar d

/-- A character inside a quoted text. -/
def escaped (c : Char) : List Char :=
  let n := c.toNat
  if n = 34 then ['\\', '\x22']
  else if n = 92 then ['\\', '\\']
  else if n < 32 then '\\' :: 'u' :: hexQuad n
  else [c]

/-- A text in quotes. -/
def quoted (s : String) : String := "\"" ++ String.ofList (s.toList.flatMap escaped) ++ "\""

/-- The text of a number that is no word: one written as an integer gets an exponent, so that it is read
as the number of that magnitude and not as an exact integer. -/
def realText (text : String) : String :=
  if text.toList.any fun c => c == '.' || c == 'e' || c == 'E' then text else text ++ "e0"

mutual

/-- Writes a value on one line. -/
def render : Json → String
  | .null => "null"
  | .bool true => "true"
  | .bool false => "false"
  | .int i => toString i
  | .real text => realText text
  | .str s => quoted s
  | .arr items => "[" ++ ",".intercalate (renderItems items) ++ "]"
  | .obj members => "\x7b" ++ ",".intercalate (renderMembers members) ++ "\x7d"

/-- Writes the items of an array. -/
def renderItems : List Json → List String
  | [] => []
  | j :: rest => render j :: renderItems rest

/-- Writes the members of an object. -/
def renderMembers : List (String × Json) → List String
  | [] => []
  | (name, j) :: rest => (quoted name ++ ":" ++ render j) :: renderMembers rest

end

end StakeTrail.Json
