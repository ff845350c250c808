import Mathlib
import StakeTrail.Digest.Keccak

/-!
# The digest in numbers

The digest is computed on arrays of machine words. Here the same rounds are written on lists of natural numbers
(`Numbers.round` and what it is made of), each step is shown to give the numbers of the words that the step on words
gives, and `keccak256_eq` says that both end in the same digest. The digest of a text is evaluated in this form.
-/

namespace StakeTrail.Digest

/-! ## Words as numbers -/

/-- The lanes of a state as numbers. -/
def numbers (a : Lanes) : List Nat := a.toList.map UInt64.toNat

theorem toNat_lane (a : Lanes) (i : Nat) : (lane a i).toNat = (numbers a).getD i 0 := by
  unfold lane numbers
  rw [Array.getD_eq_getD_getElem?, List.getD_eq_getElem?_getD, List.getElem?_map, Array.getElem?_toList]
  cases a[i]? <;> rfl

theorem numbers_range (n : Nat) (f : Nat → UInt64) :
    numbers ((Array.range n).map f) = (List.range n).map fun i => (f i).toNat := by
  simp [numbers, Function.comp_def]

namespace Numbers

/-- Rotation of a number of 64 bits. -/
def rotate (w n : Nat) : Nat := if n = 0 then w else w <<< n % 2 ^ 64 ||| w >>> (64 - n)

end Numbers

theorem toNat_rotate (w : UInt64) {n : Nat} (hn : n < 64) : (rotate w n).toNat = Numbers.rotate w.toNat n := by
  unfold rotate Numbers.rotate
  split
  · rfl
  · rename_i hne
    have hleft : n % 2 ^ 64 % 64 = n := by omega
    have hright : (64 - n) % 2 ^ 64 % 64 = 64 - n := by omega
    rw [UInt64.toNat_or, UInt64.toNat_shiftLeft, UInt64.toNat_shiftRight, UInt64.toNat_ofNat', UInt64.toNat_ofNat',
      hleft, hright]

theorem offsets_eq (i : Nat) : offsets.getD i 0 = offsets.toList.getD i 0 := by
  rw [Array.getD_eq_getD_getElem?, List.getD_eq_getElem?_getD, Array.getElem?_toList]

theorem offsets_lt (i : Nat) : offsets.toList.getD i 0 < 64 := by
  rw [List.getD_eq_getElem?_getD]
  by_cases hi : i < 25
  · have hall : ∀ i < 25, (offsets.toList[i]?).getD 0 < 64 := by decide
    exact hall i hi
  · have hlength : offsets.toList.length = 25 := rfl
    rw [List.getElem?_eq_none (by omega)]
    decide

/-! ## The steps of a round -/

namespace Numbers

/-- Adds to each lane the parities of two neighbouring columns. -/
def mixColumns (l : List Nat) : List Nat :=
  let parity := (List.range 5).map fun x =>
    l.getD x 0 ^^^ l.getD (x + 5) 0 ^^^ l.getD (x + 10) 0 ^^^ l.getD (x + 15) 0 ^^^ l.getD (x + 20) 0
  let added := (List.range 5).map fun x =>
    parity.getD ((x + 4) % 5) 0 ^^^ rotate (parity.getD ((x + 1) % 5) 0) 1
  (List.range 25).map fun i => l.getD i 0 ^^^ added.getD (i % 5) 0

/-- Rotates each lane and moves it to its new place. -/
def rotateLanes (l : List Nat) : List Nat :=
  (List.range 25).map fun i =>
    let y := i % 5
    let row := i / 5
    let x := (row + 2 * y) * 3 % 5
    let source := x + 5 * y
    rotate (l.getD source 0) (offsets.toList.getD source 0)

/-- Combines each lane with the next two of its row. -/
def mixRows (l : List Nat) : List Nat :=
  (List.range 25).map fun i =>
    let row := i / 5 * 5
    l.getD i 0 ^^^ ((l.getD (row + (i + 1) % 5) 0 ^^^ 0xFFFFFFFFFFFFFFFF) &&& l.getD (row + (i + 2) % 5) 0)

/-- One round. -/
def round (l : List Nat) (constant : UInt64) : List Nat :=
  let b := mixRows (rotateLanes (mixColumns l))
  b.set 0 (b.getD 0 0 ^^^ constant.toNat)

/-- All rounds. -/
def permute (l : List Nat) : List Nat := roundConstants.foldl round l

/-- Adds a block of seventeen words to the state and permutes it. -/
def absorb (l : List Nat) (block : Bytes) : List Nat :=
  let input := (words 17 block).map UInt64.toNat
  permute ((List.range 25).map fun i => l.getD i 0 ^^^ input.getD i 0)

/-- Absorbs the input and its padding; `blocks` counts the full blocks. -/
def absorbAll : Nat → List Nat → Bytes → List Nat
  | 0, l, rest => absorb l (rest ++ padding rest.length)
  | n + 1, l, bytes => absorbAll n (absorb l (bytes.take 136)) (bytes.drop 136)

end Numbers

theorem numbers_mixColumns (a : Lanes) : numbers (mixColumns a) = Numbers.mixColumns (numbers a) := by
  simp only [mixColumns, Numbers.mixColumns, numbers_range, UInt64.toNat_xor, toNat_lane,
    toNat_rotate _ (show 1 < 64 by decide)]

theorem numbers_rotateLanes (a : Lanes) : numbers (rotateLanes a) = Numbers.rotateLanes (numbers a) := by
  simp only [rotateLanes, Numbers.rotateLanes, numbers_range, offsets_eq, toNat_rotate _ (offsets_lt _), toNat_lane]

theorem numbers_mixRows (a : Lanes) : numbers (mixRows a) = Numbers.mixRows (numbers a) := by
  have hones : (0xFFFFFFFFFFFFFFFF : UInt64).toNat = 0xFFFFFFFFFFFFFFFF := rfl
  simp only [mixRows, Numbers.mixRows, numbers_range, UInt64.toNat_xor, UInt64.toNat_and, toNat_lane, hones]

/-- **A round on words is the round on their numbers.** -/
theorem numbers_round (a : Lanes) (constant : UInt64) : numbers (round a constant) = Numbers.round (numbers a) constant := by
  have hset : ∀ (b : Lanes) (w : UInt64), numbers (b.setIfInBounds 0 w) = (numbers b).set 0 w.toNat := by
    intro b w
    simp [numbers, List.map_set]
  simp only [round, Numbers.round, hset, numbers_mixRows, numbers_rotateLanes, numbers_mixColumns, UInt64.toNat_xor,
    toNat_lane]

theorem numbers_permute (a : Lanes) : numbers (permute a) = Numbers.permute (numbers a) := by
  unfold permute Numbers.permute
  induction roundConstants generalizing a with
  | nil => rfl
  | cons constant constants ih => rw [List.foldl_cons, List.foldl_cons, ih, numbers_round]

theorem numbers_absorb (a : Lanes) (block : Bytes) : numbers (absorb a block) = Numbers.absorb (numbers a) block := by
  have hinput : numbers (words 17 block).toArray = (words 17 block).map UInt64.toNat := by simp [numbers]
  simp only [absorb, Numbers.absorb, numbers_permute, numbers_range, UInt64.toNat_xor, toNat_lane, hinput]

theorem numbers_absorbAll : ∀ (blocks : Nat) (a : Lanes) (bytes : Bytes),
    numbers (absorbAll blocks a bytes) = Numbers.absorbAll blocks (numbers a) bytes
  | 0, a, rest => numbers_absorb a _
  | n + 1, a, bytes => by
    rw [absorbAll, Numbers.absorbAll, numbers_absorbAll n, numbers_absorb]

/-! ## The digest -/

/-- **The digest, computed on numbers.** -/
theorem keccak256_eq (input : Bytes) :
    keccak256 input = (List.range 4).flatMap fun i =>
      wordBytes (.ofNat ((Numbers.absorbAll (input.length / 136) (List.replicate 25 0) input).getD i 0)) := by
  have hzeros : numbers (Array.replicate 25 0) = List.replicate 25 0 := by simp [numbers]
  have hlane : ∀ i, lane (absorbAll (input.length / 136) (Array.replicate 25 0) input) i =
      .ofNat ((Numbers.absorbAll (input.length / 136) (List.replicate 25 0) input).getD i 0) := by
    intro i
    rw [← hzeros, ← numbers_absorbAll, ← toNat_lane, UInt64.ofNat_toNat]
  simp only [keccak256, hlane]

@[simp] theorem length_keccak256 (input : Bytes) : (keccak256 input).length = 32 := by
  have hword : ∀ w, (wordBytes w).length = 8 := by
    intro w
    simp [wordBytes]
  simp [keccak256, List.length_flatMap, hword]

end StakeTrail.Digest
