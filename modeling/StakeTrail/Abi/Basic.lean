import StakeTrail.Curve.Secp256k1

/-!
# Contract data

The parameters of a contract event are written one after the other in words of 32 bytes. A value of fixed
size is its own word; one of variable size leaves the place of its tail in its word, and its tail holds the
length and the content, filled up to whole words.

* `encode` writes values;
* `decode?` reads them back and takes nothing else: every byte of the data is accounted for.
-/

namespace StakeTrail.Abi

/-- The type of a parameter. -/
inductive Ty
  | address
  | word
  | uint (bits : Nat)
  | bytes
  | string
  deriving DecidableEq, Repr, Inhabited

/-- The name of a type in a signature. -/
def Ty.name : Ty → String
  | .address => "address"
  | .word => "bytes32"
  | .uint bits => s!"uint{bits}"
  | .bytes => "bytes"
  | .string => "string"

/-- A parameter. -/
inductive Value
  | address (bytes : Bytes)
  | word (bytes : Bytes)
  | uint (n : Nat)
  | bytes (content : Bytes)
  | string (content : Bytes)
  deriving DecidableEq, Repr, Inhabited

/-- Whether bytes are the text of some characters. -/
def isText (content : Bytes) : Bool := (String.fromUTF8? ⟨content.toArray⟩).isSome

/-- Whether a value belongs to a type. -/
def Value.belongs : Value → Ty → Bool
  | .address b, .address => b.length == 20
  | .word b, .word => b.length == 32
  | .uint n, .uint bits => decide (n < 1 <<< bits)
  | .bytes b, .bytes => decide (b.length < 1 <<< 256)
  | .string b, .string => decide (b.length < 1 <<< 256) && isText b
  | _, _ => false

/-- The word of a number. -/
def numberWord (n : Nat) : Bytes := Curve.numberBytes 32 n

/-- The length of some content in whole words, in bytes. -/
def padded (n : Nat) : Nat := (n + 31) / 32 * 32

/-- The tail of a value of variable size. -/
def tailOf (content : Bytes) : Bytes :=
  numberWord content.length ++ content ++ List.replicate (padded content.length - content.length) 0

/-- The words and the tails of some values; the first tail stands at `offset`. -/
def encodeAt (offset : Nat) : List Value → Bytes × Bytes
  | [] => ([], [])
  | v :: rest =>
    match v with
    | .address b =>
      let (words, tails) := encodeAt offset rest
      (List.replicate 12 0 ++ b ++ words, tails)
    | .word b =>
      let (words, tails) := encodeAt offset rest
      (b ++ words, tails)
    | .uint n =>
      let (words, tails) := encodeAt offset rest
      (numberWord n ++ words, tails)
    | .bytes content | .string content =>
      let tail := tailOf content
      let (words, tails) := encodeAt (offset + tail.length) rest
      (numberWord offset ++ words, tail ++ tails)

/-- Writes values. -/
def encode (values : List Value) : Bytes :=
  let (words, tails) := encodeAt (32 * values.length) values
  words ++ tails

/-- Reads a tail: its content, and the bytes after it. -/
def tail? (tails : Bytes) : Option (Bytes × Bytes) :=
  let n := Curve.number (tails.take 32)
  let body := tails.drop 32
  if tails.length < 32 ∨ body.length < padded n then none
  else if ((body.take (padded n)).drop n).any (· != 0) then none
  else some (body.take n, body.drop (padded n))

/-- Reads the value of a type from its word and, if it has one, its tail, which stands at `offset`. -/
def value? (ty : Ty) (offset : Nat) (word tails : Bytes) : Option (Value × Nat × Bytes) :=
  match ty with
  | .address =>
    if (word.take 12).all (· == 0) then some (.address (word.drop 12), offset, tails) else none
  | .word => some (.word word, offset, tails)
  | .uint bits =>
    let n := Curve.number word
    if n < 1 <<< bits then some (.uint n, offset, tails) else none
  | .bytes =>
    if Curve.number word = offset then
      (tail? tails).map fun (content, rest) => (.bytes content, offset + (tailOf content).length, rest)
    else none
  | .string =>
    if Curve.number word = offset then
      match tail? tails with
      | some (content, rest) =>
        if isText content then some (.string content, offset + (tailOf content).length, rest) else none
      | none => none
    else none

/-- Reads values from their words and tails; the first tail stands at `offset`. -/
def decodeAt? (offset : Nat) (words tails : Bytes) : List Ty → Option (List Value)
  | [] => if words.isEmpty ∧ tails.isEmpty then some [] else none
  | ty :: rest =>
    if words.length < 32 then none
    else
      match value? ty offset (words.take 32) tails with
      | none => none
      | some (v, offset, tails) => (decodeAt? offset (words.drop 32) tails rest).map (v :: ·)

/-- Reads values of the given types. -/
def decode? (types : List Ty) (data : Bytes) : Option (List Value) :=
  let n := 32 * types.length
  decodeAt? n (data.take n) (data.drop n) types

end StakeTrail.Abi
