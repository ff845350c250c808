import StakeTrail.Json.Basic
import StakeTrail.Json.Decimal

/-!
# Reading JSON text

`Json.parse` reads one value and the blanks around it. Values nest at most `maxDepth` deep; characters
beyond the basic plane may be escaped as a pair of surrogates, and a lone surrogate is refused. The functions
hand back what follows, and the fuel they take is the length of the text.
-/

namespace StakeTrail.Json

/-- The deepest nesting that is read. -/
def maxDepth : Nat := 127

/-- Text without the blanks in front. -/
def skipBlanks (cs : List Char) : List Char :=
  cs.dropWhile fun c => c == ' ' || c == '\t' || c == '\n' || c == '\r'

/-- The value of four hexadecimal digits. -/
def quad? : List Char → Option (Nat × List Char)
  | a :: b :: c :: d :: rest => do
    let digit (c : Char) : Option Nat :=
      let n := c.toNat
      if 48 ≤ n ∧ n ≤ 57 then some (n - 48)
      else if 97 ≤ n ∧ n ≤ 102 then some (n - 87)
      else if 65 ≤ n ∧ n ≤ 70 then some (n - 55)
      else none
    some ((((← digit a) * 16 + (← digit b)) * 16 + (← digit c)) * 16 + (← digit d), rest)
  | _ => none

/-- The character of an escape whose letter `u` was read. -/
def unicode? (cs : List Char) : Option (Char × List Char) := do
  let (high, rest) ← quad? cs
  if 0xDC00 ≤ high ∧ high ≤ 0xDFFF then none
  else if 0xD800 ≤ high ∧ high ≤ 0xDBFF then
    match rest with
    | '\\' :: 'u' :: more => do
      let (low, rest) ← quad? more
      if 0xDC00 ≤ low ∧ low ≤ 0xDFFF then
        some (Char.ofNat (0x10000 + (high - 0xD800) * 0x400 + (low - 0xDC00)), rest)
      else none
    | _ => none
  else some (Char.ofNat high, rest)

/-- The rest of a quoted text; the characters read so far come last first. -/
def stringBody : Nat → List Char → List Char → Option (String × List Char)
  | 0, _, _ => none
  | _ + 1, _, [] => none
  | fuel + 1, acc, c :: rest =>
    let n := c.toNat
    if n = 34 then some (String.ofList acc.reverse, rest)
    else if n = 92 then
      match rest with
      | [] => none
      | e :: rest =>
        let plain (c : Char) := stringBody fuel (c :: acc) rest
        if e.toNat = 34 then plain e
        else
          match e with
          | '\\' => plain '\\'
          | '/' => plain '/'
          | 'b' => plain (Char.ofNat 8)
          | 'f' => plain (Char.ofNat 12)
          | 'n' => plain '\n'
          | 'r' => plain '\r'
          | 't' => plain '\t'
          | 'u' => do
            let (c, rest) ← unicode? rest
            stringBody fuel (c :: acc) rest
          | _ => none
    else if n < 32 then none
    else stringBody fuel (c :: acc) rest

/-- The leading decimal digits and what follows them. -/
def digitRun (cs : List Char) : List Char × List Char := cs.span Char.isDigit

/-- The integer part of a number: zero, or digits of which the first is not zero. -/
def wholePart? (cs : List Char) : Option (List Char × List Char) :=
  match digitRun cs with
  | ([], _) => none
  | ('0' :: _ :: _, _) => none
  | (ds, rest) => some (ds, rest)

/-- The fraction of a number with its point, if there is one. -/
def fraction? : List Char → Option (List Char × List Char)
  | '.' :: cs =>
    match digitRun cs with
    | ([], _) => none
    | (ds, rest) => some ('.' :: ds, rest)
  | cs => some ([], cs)

/-- The exponent of a number with its letter, if there is one. -/
def exponent? : List Char → Option (List Char × List Char)
  | c :: cs =>
    if c == 'e' || c == 'E' then
      let (sign, cs) :=
        match cs with
        | '+' :: cs => (['+'], cs)
        | '-' :: cs => (['-'], cs)
        | cs => ([], cs)
      match digitRun cs with
      | ([], _) => none
      | (ds, rest) => some (c :: sign ++ ds, rest)
    else some ([], c :: cs)
  | [] => some ([], [])

/-- Reads a number. -/
def number? (cs : List Char) : Option (Json × List Char) := do
  let (negative, cs) :=
    match cs with
    | '-' :: cs => (true, cs)
    | cs => (false, cs)
  let (whole, cs) ← wholePart? cs
  let (fraction, cs) ← fraction? cs
  let (exponent, rest) ← exponent? cs
  let n := decimal whole
  let sign := if negative then ['-'] else []
  let real := Json.real (String.ofList (sign ++ whole ++ fraction ++ exponent))
  let value :=
    if fraction.isEmpty && exponent.isEmpty then
      if negative then
        if n = 0 then real else if Word.fits (-(n : Int)) then .int (-(n : Int)) else real
      else if n ≤ Word.top then .int n
      else real
    else real
  some (value, rest)

/-- The text after a keyword. -/
def keyword? (word : String) (value : Json) (cs : List Char) : Option (Json × List Char) :=
  if cs.take word.length = word.toList then some (value, cs.drop word.length) else none

mutual

/-- Reads a value; `depth` levels may still be opened. -/
def value? : Nat → Nat → List Char → Option (Json × List Char)
  | 0, _, _ => none
  | fuel + 1, depth, cs =>
    match skipBlanks cs with
    | [] => none
    | c :: rest =>
      if c.toNat = 34 then (stringBody fuel [] rest).map fun (s, rest) => (.str s, rest)
      else
        match c with
        | 'n' => keyword? "null" .null (c :: rest)
        | 't' => keyword? "true" (.bool true) (c :: rest)
        | 'f' => keyword? "false" (.bool false) (c :: rest)
        | '[' =>
          match depth with
          | 0 => none
          | depth + 1 =>
            match skipBlanks rest with
            | ']' :: rest => some (.arr [], rest)
            | rest => items? fuel depth [] rest
        | '\x7b' =>
          match depth with
          | 0 => none
          | depth + 1 =>
            match skipBlanks rest with
            | '\x7d' :: rest => some (.obj [], rest)
            | rest => members? fuel depth [] rest
        | _ => number? (c :: rest)

/-- Reads the items of an array up to its bracket; those read so far come last first. -/
def items? : Nat → Nat → List Json → List Char → Option (Json × List Char)
  | 0, _, _, _ => none
  | fuel + 1, depth, acc, cs => do
    let (j, rest) ← value? fuel depth cs
    match skipBlanks rest with
    | ',' :: rest => items? fuel depth (j :: acc) rest
    | ']' :: rest => some (.arr (j :: acc).reverse, rest)
    | _ => none

/-- Reads the members of an object up to its brace; those read so far come last first. -/
def members? : Nat → Nat → List (String × Json) → List Char → Option (Json × List Char)
  | 0, _, _, _ => none
  | fuel + 1, depth, acc, cs =>
    match skipBlanks cs with
    | [] => none
    | c :: rest =>
      if c.toNat = 34 then do
        let (name, rest) ← stringBody fuel [] rest
        match skipBlanks rest with
        | ':' :: rest => do
          let (j, rest) ← value? fuel depth rest
          match skipBlanks rest with
          | ',' :: rest => members? fuel depth ((name, j) :: acc) rest
          | '\x7d' :: rest => some (.obj ((name, j) :: acc).reverse, rest)
          | _ => none
        | _ => none
      else none

end

/-- Reads a text that holds one value. -/
def parse (text : String) : Option Json := do
  let cs := text.toList
  let (j, rest) ← value? (2 * cs.length + 2) maxDepth cs
  match skipBlanks rest with
  | [] => some j
  | _ => none

end StakeTrail.Json
