import StakeTrail.Text.Hex

/-!
# Compressed points of the curve secp256k1

The curve is `y ^ 2 = x ^ 3 + 7` over the integers modulo `fieldPrime`. A compressed point is a tag and the
32 bytes of `x`; `decompress` finds the `y` that the tag names. A coordinate out of range is refused, not
reduced, and so is an `x` that no point of the curve has.
-/

namespace StakeTrail.Curve

/-- The number of elements of the field. -/
def fieldPrime : Nat := 0xFFFFFFFFFFFFFFFFFFFFFFFFFFFFFFFFFFFFFFFFFFFFFFFFFFFFFFFEFFFFFC2F

/-- `base ^ exponent` modulo the field's prime; `bits` bounds the exponent's binary length. -/
def power : Nat → Nat → Nat → Nat
  | 0, _, _ => 1
  | bits + 1, base, exponent =>
    let rest := power bits (base * base % fieldPrime) (exponent / 2)
    if exponent % 2 = 1 then base * rest % fieldPrime else rest

/-- A square root in the field, if there is one: the prime is three modulo four. -/
def root? (n : Nat) : Option Nat :=
  let r := power 256 n ((fieldPrime + 1) / 4)
  if r * r % fieldPrime = n % fieldPrime then some r else none

/-- The number that some bytes spell, the most significant one first. -/
def number (bytes : Bytes) : Nat := bytes.foldl (fun n b => 256 * n + b.toNat) 0

/-- The last `n` bytes of a number, the most significant one first. -/
def numberBytes : Nat → Nat → Bytes
  | 0, _ => []
  | n + 1, value => numberBytes n (value / 256) ++ [UInt8.ofNat (value % 256)]

/-- The coordinates of a compressed point. Tags 2 and 5 name the even `y`, tag 3 the odd one. -/
def decompress : Bytes → Option (Nat × Nat)
  | [] => none
  | tag :: rest =>
    let x := number rest
    if rest.length ≠ 32 ∨ x ≥ fieldPrime ∨ ¬(tag = 2 ∨ tag = 3 ∨ tag = 5) then none
    else
      match root? ((x * x % fieldPrime * x + 7) % fieldPrime) with
      | none => none
      | some y =>
        let odd := decide (tag = 3)
        if (y % 2 == 1) == odd then some (x, y) else some (x, (fieldPrime - y) % fieldPrime)

end StakeTrail.Curve
