import StakeTrail.Text.Hex

/-!
# The Keccak-256 digest

A state is twenty-five 64-bit lanes, lane `x + 5 * y` standing in column `x` and row `y`. Input is taken in
blocks of 136 bytes, least significant byte first; the digest is the first four lanes after the last block.
-/

namespace StakeTrail.Digest

/-- The lanes of a state. -/
abbrev Lanes := Array UInt64

/-- The lane at an index. -/
def lane (a : Lanes) (i : Nat) : UInt64 := a.getD i 0

/-- Rotation towards the most significant bit. -/
def rotate (w : UInt64) (n : Nat) : UInt64 :=
  if n = 0 then w else (w <<< UInt64.ofNat n) ||| (w >>> UInt64.ofNat (64 - n))

/-- How far each lane is rotated. -/
def offsets : Array Nat :=
  #[0, 1, 62, 28, 27, 36, 44, 6, 55, 20, 3, 10, 43, 25, 39, 41, 45, 15, 21, 8, 18, 2, 61, 56, 14]

/-- What each round adds to the first lane. -/
def roundConstants : List UInt64 := [
  0x0000000000000001, 0x0000000000008082, 0x800000000000808A, 0x8000000080008000,
  0x000000000000808B, 0x0000000080000001, 0x8000000080008081, 0x8000000000008009,
  0x000000000000008A, 0x0000000000000088, 0x0000000080008009, 0x000000008000000A,
  0x000000008000808B, 0x800000000000008B, 0x8000000000008089, 0x8000000000008003,
  0x8000000000008002, 0x8000000000000080, 0x000000000000800A, 0x800000008000000A,
  0x8000000080008081, 0x8000000000008080, 0x0000000080000001, 0x8000000080008008]

/-- Adds to each lane the parities of two neighbouring columns. -/
def mixColumns (a : Lanes) : Lanes :=
  let parity := (Array.range 5).map fun x =>
    lane a x ^^^ lane a (x + 5) ^^^ lane a (x + 10) ^^^ lane a (x + 15) ^^^ lane a (x + 20)
  let added := (Array.range 5).map fun x =>
    lane parity ((x + 4) % 5) ^^^ rotate (lane parity ((x + 1) % 5)) 1
  (Array.range 25).map fun i => lane a i ^^^ lane added (i % 5)

/-- Rotates each lane and moves it to its new place: column `y` and row `2 x + 3 y` receive what stood in
column `x` and row `y`. -/
def rotateLanes (a : Lanes) : Lanes :=
  (Array.range 25).map fun i =>
    let y := i % 5
    let row := i / 5
    let x := (row + 2 * y) * 3 % 5
    let source := x + 5 * y
    rotate (lane a source) (offsets.getD source 0)

/-- Combines each lane with the next two of its row. -/
def mixRows (a : Lanes) : Lanes :=
  (Array.range 25).map fun i =>
    let row := i / 5 * 5
    lane a i ^^^ ((lane a (row + (i + 1) % 5) ^^^ 0xFFFFFFFFFFFFFFFF) &&& lane a (row + (i + 2) % 5))

/-- One round. -/
def round (a : Lanes) (constant : UInt64) : Lanes :=
  let b := mixRows (rotateLanes (mixColumns a))
  b.setIfInBounds 0 (lane b 0 ^^^ constant)

/-- All rounds. -/
def permute (a : Lanes) : Lanes := roundConstants.foldl round a

/-- The word whose bytes are given from the least significant one. -/
def word : Bytes → UInt64
  | [] => 0
  | b :: rest => b.toUInt64 ||| (word rest <<< 8)

/-- The words of some bytes, eight a word; `n` bounds their number. -/
def words : Nat → Bytes → List UInt64
  | 0, _ => []
  | n + 1, bytes => word (bytes.take 8) :: words n (bytes.drop 8)

/-- Adds a block of seventeen words to the state and permutes it. -/
def absorb (a : Lanes) (block : Bytes) : Lanes :=
  let input := (words 17 block).toArray
  permute ((Array.range 25).map fun i => lane a i ^^^ lane input i)

/-- The bytes that fill up the last block, of which `n` bytes are taken. -/
def padding (n : Nat) : Bytes :=
  if n = 135 then [0x81] else 0x01 :: (List.replicate (134 - n) 0 ++ [0x80])

/-- Absorbs the input and its padding; `blocks` counts the full blocks. -/
def absorbAll : Nat → Lanes → Bytes → Lanes
  | 0, a, rest => absorb a (rest ++ padding rest.length)
  | n + 1, a, bytes => absorbAll n (absorb a (bytes.take 136)) (bytes.drop 136)

/-- The bytes of a word, the least significant one first. -/
def wordBytes (w : UInt64) : Bytes := (List.range 8).map fun i => (w >>> UInt64.ofNat (8 * i)).toUInt8

/-- The digest of some bytes, 32 bytes long. -/
def keccak256 (input : Bytes) : Bytes :=
  let a := absorbAll (input.length / 136) (Array.replicate 25 0) input
  (List.range 4).flatMap fun i => wordBytes (lane a i)

end StakeTrail.Digest
