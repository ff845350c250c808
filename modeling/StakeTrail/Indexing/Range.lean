/-!
# Ranges of heights

A range of heights is worked off in pieces of at most `batch` heights, in ascending order. A piece is given
by its first and its last height.
-/

namespace StakeTrail.Indexing

/-- The last height of the piece that starts at `start`; a batch of zero acts as one. -/
def pieceEnd (start stop batch : Nat) : Nat := min (start + (max batch 1 - 1)) stop

theorem le_pieceEnd {start stop batch : Nat} (h : start ≤ stop) : start ≤ pieceEnd start stop batch := by
  unfold pieceEnd
  omega

theorem pieceEnd_le (start stop batch : Nat) : pieceEnd start stop batch ≤ stop := Nat.min_le_right _ _

/-- The first `n` pieces of a range. -/
def somePieces : Nat → Nat → Nat → Nat → List (Nat × Nat)
  | 0, _, _, _ => []
  | n + 1, start, stop, batch =>
    if start ≤ stop then
      let last := pieceEnd start stop batch
      (start, last) :: somePieces n (last + 1) stop batch
    else []

/-- The pieces of a range. -/
def pieces (start stop batch : Nat) : List (Nat × Nat) := somePieces (stop + 1 - start) start stop batch

end StakeTrail.Indexing
