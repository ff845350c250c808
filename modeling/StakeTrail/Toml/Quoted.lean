/-!
# Lines and quoted text of a settings file

Blanks are spaces and tabs; a line ends with a line feed, which a carriage return may precede. Quoted text has
four forms: double quotes with escapes or single quotes without, each on one line or, behind three quotes, on
several. On several lines a line end right after the opening quotes is dropped, any other is a line feed,
and up to two quotes may stand right before the closing ones. The functions hand back what follows; the
fuel that some take is the length of the text.
-/

namespace StakeTrail.Toml

/-- Whether a character may stand in a comment and in single quotes. -/
def isText (c : Char) : Bool := c == '\t' || (32 ≤ c.toNat && c.toNat ≤ 126) || 128 ≤ c.toNat

/-- Whether a character is a space or a tab. -/
def isBlank (c : Char) : Bool := c == ' ' || c == '\t'

/-- Text without the blanks in front. -/
def skipBlanks (cs : List Char) : List Char := cs.dropWhile isBlank

/-- The text after a line end. -/
def newline? : List Char → Option (List Char)
  | '\n' :: rest => some rest
  | '\r' :: '\n' :: rest => some rest
  | _ => none

/-- Text without the comment in front. -/
def skipComment : List Char → List Char
  | '#' :: rest => rest.dropWhile isText
  | cs => cs

/-- The text after the rest of a line that holds nothing but blanks and a comment. -/
def lineEnd? (cs : List Char) : Option (List Char) :=
  match skipComment (skipBlanks cs) with
  | [] => some []
  | rest => newline? rest

/-- Text without blanks and line ends in front. -/
def skipSpace : Nat → List Char → List Char
  | 0, cs => cs
  | fuel + 1, cs =>
    match newline? (skipBlanks cs) with
    | some rest => skipSpace fuel rest
    | none => skipBlanks cs

/-- Text without blanks, comments and line ends in front. -/
def skipLines : Nat → List Char → List Char
  | 0, cs => cs
  | fuel + 1, cs =>
    match newline? (skipComment (skipBlanks cs)) with
    | some rest => skipLines fuel rest
    | none => skipComment (skipBlanks cs)

/-- The value of a hexadecimal digit. -/
def hexDigit? (c : Char) : Option Nat :=
  let n := c.toNat
  if 48 ≤ n ∧ n ≤ 57 then some (n - 48)
  else if 97 ≤ n ∧ n ≤ 102 then some (n - 87)
  else if 65 ≤ n ∧ n ≤ 70 then some (n - 55)
  else none

/-- The number that the first `n` characters spell in hexadecimal. -/
def hexNumber? : Nat → Nat → List Char → Option (Nat × List Char)
  | 0, acc, cs => some (acc, cs)
  | n + 1, acc, c :: rest => do hexNumber? n (acc * 16 + (← hexDigit? c)) rest
  | _ + 1, _, [] => none

/-- The character with a number that `n` hexadecimal digits spell. -/
def scalar? (n : Nat) (cs : List Char) : Option (Char × List Char) := do
  let (code, rest) ← hexNumber? n 0 cs
  if code.isValidChar then some (Char.ofNat code, rest) else none

/-- The character of an escape whose backslash was read. -/
def escape? : List Char → Option (Char × List Char)
  | [] => none
  | c :: rest =>
    match c with
    | 'b' => some (Char.ofNat 8, rest)
    | 't' => some ('\t', rest)
    | 'n' => some ('\n', rest)
    | 'f' => some (Char.ofNat 12, rest)
    | 'r' => some ('\r', rest)
    | '\x22' => some ('\x22', rest)
    | '\\' => some ('\\', rest)
    | 'u' => scalar? 4 rest
    | 'U' => scalar? 8 rest
    | _ => none

/-- The rest of a text in double quotes; the characters read so far come last first. -/
def escapedBody : Nat → List Char → List Char → Option (String × List Char)
  | 0, _, _ => none
  | _ + 1, _, [] => none
  | fuel + 1, acc, c :: rest =>
    if c = '\x22' then some (String.ofList acc.reverse, rest)
    else if c = '\\' then do
      let (c, rest) ← escape? rest
      escapedBody fuel (c :: acc) rest
    else if isText c then escapedBody fuel (c :: acc) rest
    else none

/-- The rest of a text in single quotes. -/
def literalBody (cs : List Char) : Option (String × List Char) :=
  let (body, rest) := cs.span fun c => isText c && c != '\''
  match rest with
  | '\'' :: rest => some (String.ofList body, rest)
  | _ => none

/-- The quotes at the front of a text over several lines: how many of them belong to it, and whether the others
close it. -/
def quoteRun (quote : Char) (cs : List Char) : Nat × Bool :=
  let n := (cs.takeWhile (· == quote)).length
  if n < 3 then (n, false) else (min (n - 3) 2, true)

/-- The rest of a text over several lines; the characters read so far come last first. Only some texts have
escapes, and there a backslash at the end of a line drops all space up to the next character. -/
def linesBody (quote : Char) (escapes : Bool) : Nat → List Char → List Char → Option (String × List Char)
  | 0, _, _ => none
  | _ + 1, _, [] => none
  | fuel + 1, acc, c :: rest =>
    if c = quote then
      let (own, closed) := quoteRun quote (c :: rest)
      let acc := List.replicate own quote ++ acc
      if closed then some (String.ofList acc.reverse, (c :: rest).drop (own + 3))
      else linesBody quote escapes fuel acc ((c :: rest).drop own)
    else if escapes && c == '\\' then
      match newline? (skipBlanks rest) with
      | some rest => linesBody quote escapes fuel acc (skipSpace fuel rest)
      | none => do
        let (c, rest) ← escape? rest
        linesBody quote escapes fuel (c :: acc) rest
    else
      match newline? (c :: rest) with
      | some rest => linesBody quote escapes fuel ('\n' :: acc) rest
      | none => if isText c then linesBody quote escapes fuel (c :: acc) rest else none

/-- Reads a text in quotes on one line. -/
def quoted? : List Char → Option (String × List Char)
  | '\x22' :: rest => escapedBody (rest.length + 1) [] rest
  | '\'' :: rest => literalBody rest
  | _ => none

/-- Reads a text in quotes of any form. -/
def string? : List Char → Option (String × List Char)
  | '\x22' :: '\x22' :: '\x22' :: rest =>
    linesBody '\x22' true (rest.length + 1) [] ((newline? rest).getD rest)
  | '\'' :: '\'' :: '\'' :: rest =>
    linesBody '\'' false (rest.length + 1) [] ((newline? rest).getD rest)
  | cs => quoted? cs

end StakeTrail.Toml
