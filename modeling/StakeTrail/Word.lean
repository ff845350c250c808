/-!
# Sixty-four-bit words

Heights, counts and indices are natural numbers below `2 ^ 64`; amounts and times are integers that fit
a signed word. This file holds the bounds and the readings that connect the two:

* `signed` is the two's complement reading, in which a table compares and orders its columns;
* `low` keeps the low 32 bits of a word, with their sign; it is what a query hands back;
* `half` keeps them without a sign, as places in a list are counted;
* `readBack` is `low` for a column of natural numbers.
-/

namespace StakeTrail.Word

/-- The greatest unsigned word. -/
def top : Nat := 0xFFFFFFFFFFFFFFFF

/-- The greatest unsigned half word. -/
def topHalf : Nat := 0xFFFFFFFF

/-- The least signed word. -/
def least : Int := -0x8000000000000000

/-- The greatest signed word. -/
def greatest : Int := 0x7FFFFFFFFFFFFFFF

/-- Whether an integer is a signed word. -/
def fits (i : Int) : Bool := decide (least ≤ i ∧ i ≤ greatest)

/-- The sum of two signed words, if it is one. -/
def add? (a b : Int) : Option Int := if fits (a + b) then some (a + b) else none

/-- Two's complement reading of an unsigned word. -/
def signed (n : Nat) : Int := (n + 0x8000000000000000 : Int) % 0x10000000000000000 - 0x8000000000000000

/-- The unsigned word with the bits of a signed one. -/
def unsigned (i : Int) : Nat := (i % 0x10000000000000000).toNat

/-- The low 32 bits, read as a signed half word. -/
def low (i : Int) : Int := (i + 0x80000000) % 0x100000000 - 0x80000000

/-- The low 32 bits, read as an unsigned half word. -/
def half (n : Nat) : Nat := n % 0x100000000

/-- A natural number as a query hands it back: the low half word, sign-extended to a full word. -/
def readBack (n : Nat) : Nat := unsigned (low n)

theorem signed_of_lt {n : Nat} (h : n < 0x8000000000000000) : signed n = n := by
  unfold signed
  omega

theorem low_of_lt {i : Int} (h₀ : -0x80000000 ≤ i) (h : i < 0x80000000) : low i = i := by
  unfold low
  omega

theorem half_of_le {n : Nat} (h : n ≤ topHalf) : half n = n := by
  unfold topHalf at h
  unfold half
  omega

theorem readBack_of_lt {n : Nat} (h : n < 0x80000000) : readBack n = n := by
  rw [readBack, low_of_lt (by omega) (by omega)]
  unfold unsigned
  omega

end StakeTrail.Word
