import StakeTrail.Curve.Secp256k1
import StakeTrail.Digest.Keccak
import StakeTrail.Fault
import StakeTrail.Text.Blank

/-!
# Addresses

Addresses and hashes are stored in one normal form: lower-case with a leading `0x`, or empty. `normalForm`
brings a text into it and `agree` compares in it. `ofKey` derives the address that a compressed
public key owns: the last twenty bytes of the digest of the point.
-/

namespace StakeTrail.Address

open Text

/-- The length of a compressed public key. -/
def keyLength : Nat := 33

/-- The characters of the normal form. -/
def normalChars (cs : List Char) : List Char :=
  match trimmed cs with
  | [] => []
  | '0' :: 'x' :: rest => '0' :: 'x' :: rest.map Char.toLower
  | '0' :: 'X' :: rest => '0' :: 'x' :: rest.map Char.toLower
  | rest => '0' :: 'x' :: rest.map Char.toLower

/-- Trims a text, puts its ASCII letters in lower case and `0x` in front; an empty text stays empty. -/
def normalForm (s : String) : String := String.ofList (normalChars s.toList)

/-- Whether two texts spell one address. -/
def agree (a b : String) : Bool := normalForm a == normalForm b

/-- The text of an address of twenty bytes. -/
def ofBytes (bytes : Bytes) : String := "0x" ++ Hex.encode bytes

/-- The address that a compressed public key owns. -/
def ofKey (key : Bytes) : Except Fault String :=
  if key.length = keyLength then
    match Curve.decompress key with
    | some (x, y) =>
      .ok (ofBytes ((Digest.keccak256 (Curve.numberBytes 32 x ++ Curve.numberBytes 32 y)).drop 12))
    | none => .error (.invalidKey .offCurve)
  else .error (.invalidKey (.length key.length))

/-- A text without one leading `0x`. -/
def bare (s : String) : String :=
  match s.toList with
  | '0' :: 'x' :: rest => String.ofList rest
  | _ => s

/-- The address that a compressed public key in hexadecimal owns. -/
def ofKeyText (text : String) : Except Fault String :=
  match Hex.decode (bare text) with
  | .ok key => ofKey key
  | .error why => .error (.invalidKey (.hex why))

end StakeTrail.Address
