import StakeTrail.Indexing.Range

/-!
# Ranges without gap or overlap

`Tiles size a z ps` says that the intervals `ps` follow each other from `a` up to, but not including, `z`, and that
none of them holds more than `size` heights.

* The pieces of a range tile it (`pieces_tile`).
* Tilings compose (`Tiles.append`), and a tiling never runs backwards (`Tiles.le`).
-/

namespace StakeTrail.Indexing

/-- **Consecutive intervals** from `a` on that end right before `z`, each of at most `size` heights. -/
def Tiles (size : Nat) : Nat → Nat → List (Nat × Nat) → Prop
  | a, z, [] => a = z
  | a, z, (x, y) :: ps => x = a ∧ a ≤ y ∧ y < a + size ∧ Tiles size (y + 1) z ps

namespace Tiles

variable {size : Nat}

theorem le : ∀ {ps : List (Nat × Nat)} {a z : Nat}, Tiles size a z ps → a ≤ z
  | [], _, _, h => Nat.le_of_eq h
  | (_, _) :: _, _, _, ⟨_, hy, _, ht⟩ => by
    have := ht.le
    omega

/-- Two tilings, one after the other. -/
theorem append : ∀ {ps qs : List (Nat × Nat)} {a m z : Nat}, Tiles size a m ps → Tiles size m z qs →
    Tiles size a z (ps ++ qs)
  | [], _, _, _, _, h, hq => by
    cases h
    exact hq
  | (_, _) :: _, _, _, _, _, ⟨hx, hy, hs, ht⟩, hq => ⟨hx, hy, hs, ht.append hq⟩

end Tiles

/-- A piece holds at most as many heights as the batch allows. -/
theorem pieceEnd_lt (start stop batch : Nat) : pieceEnd start stop batch < start + max batch 1 := by
  unfold pieceEnd
  omega

theorem somePieces_tile {stop batch : Nat} : ∀ {n start : Nat}, start ≤ stop + 1 → stop + 1 - start ≤ n →
    Tiles (max batch 1) start (stop + 1) (somePieces n start stop batch)
  | 0, start, hs, hn => by
    have : start = stop + 1 := by omega
    exact this
  | n + 1, start, hs, hn => by
    unfold somePieces
    by_cases h : start ≤ stop
    · rw [if_pos h]
      have hle : start ≤ pieceEnd start stop batch := le_pieceEnd h
      have hstop := pieceEnd_le start stop batch
      exact ⟨rfl, hle, pieceEnd_lt start stop batch, somePieces_tile (by omega) (by omega)⟩
    · rw [if_neg h]
      have : start = stop + 1 := by omega
      exact this

/-- **The pieces of a range tile it.** -/
theorem pieces_tile {start stop batch : Nat} (h : start ≤ stop + 1) :
    Tiles (max batch 1) start (stop + 1) (pieces start stop batch) :=
  somePieces_tile h (Nat.le_refl _)

end StakeTrail.Indexing
