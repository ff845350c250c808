import Mathlib
import StakeTrail.Proofs.Indexing.Tiling

/-!
# Ranges cut to one size

`Cut` says what it is to cut a range into pieces of one size: the pieces follow each other from the first height to the
last, and only the last of them may hold fewer heights.

* Intervals that tile a range follow each other, and each height is in one of them (`Tiles.chain`, `Tiles.once`).
* All pieces but the last are full (`somePieces_full`).

**The pieces of a range cut it** (`pieces_cut`), an empty range into none.
-/

namespace StakeTrail.Indexing

/-- **A range that is cut** into pieces of `size` heights each. -/
structure Cut (first last size : Nat) (ps : List (Nat × Nat)) : Prop where
  /-- There is a piece as soon as there is a height. -/
  eq_nil_iff : ps = [] ↔ last < first
  nonempty : ∀ p ∈ ps, p.1 ≤ p.2
  head : ∀ p ∈ ps.head?, p.1 = first
  /-- Each piece starts right after the one before it. -/
  chain : ps.IsChain fun p q => q.1 = p.2 + 1
  getLast : ∀ p ∈ ps.getLast?, p.2 = last
  /-- All pieces but the last are full, -/
  full : ∀ p ∈ ps.dropLast, p.2 + 1 - p.1 = size
  /-- and the last holds no more than they do. -/
  length_le : ∀ p ∈ ps, p.2 + 1 - p.1 ≤ size
  /-- A height of the range is in one piece, and no other height is in any. -/
  once : ∀ h, ps.countP (fun p => p.1 ≤ h ∧ h ≤ p.2) = if first ≤ h ∧ h ≤ last then 1 else 0

/-! ## Tiled ranges -/

namespace Tiles

variable {size a z : Nat} {ps : List (Nat × Nat)}

theorem eq_nil_iff (h : Tiles size a z ps) : ps = [] ↔ z ≤ a := by
  rcases ps with _ | ⟨⟨x, y⟩, ps⟩
  · exact iff_of_true rfl (Nat.le_of_eq h.symm)
  · obtain ⟨-, hy, -, ht⟩ := h
    have := ht.le
    exact iff_of_false (List.cons_ne_nil _ _) (by omega)

theorem head (h : Tiles size a z ps) : ∀ p ∈ ps.head?, p.1 = a := by
  rcases ps with _ | ⟨p, ps⟩
  · exact nofun
  · rintro _ ⟨⟩
    exact h.1

theorem bounds : ∀ {ps : List (Nat × Nat)} {a : Nat}, Tiles size a z ps → ∀ p ∈ ps, p.1 ≤ p.2 ∧ p.2 < p.1 + size
  | (_, _) :: _, _, ⟨hx, hy, hs, ht⟩, p, hp => by
    rcases List.mem_cons.mp hp with rfl | hp
    · subst hx
      exact ⟨hy, hs⟩
    · exact ht.bounds p hp

theorem chain : ∀ {ps : List (Nat × Nat)} {a : Nat}, Tiles size a z ps → ps.IsChain fun p q => q.1 = p.2 + 1
  | [], _, _ => .nil
  | [_], _, _ => .singleton _
  | (_, _) :: (_, _) :: _, _, ⟨_, _, _, ht⟩ => .cons_cons ht.1 ht.chain

theorem getLast : ∀ {ps : List (Nat × Nat)} {a : Nat}, Tiles size a z ps → ∀ p ∈ ps.getLast?, p.2 + 1 = z
  | [(_, _)], _, ⟨_, _, _, ht⟩, _, rfl => ht
  | (_, _) :: q :: ps, _, ⟨_, _, _, ht⟩, p, hp => ht.getLast p (by rwa [List.getLast?_cons_cons] at hp)

/-- **Each height of a tiled range is in one interval**, and no other height is in any. -/
theorem once (k : Nat) : ∀ {ps : List (Nat × Nat)} {a : Nat}, Tiles size a z ps →
    ps.countP (fun p => p.1 ≤ k ∧ k ≤ p.2) = if a ≤ k ∧ k < z then 1 else 0
  | [], a, h => by
    have : a = z := h
    rw [List.countP_nil, if_neg (by omega)]
  | (x, y) :: ps, a, ⟨hx, hy, _, ht⟩ => by
    have hz := ht.le
    rw [List.countP_cons, ht.once k]
    simp only [decide_eq_true_eq]
    split_ifs <;> omega

end Tiles

/-! ## The pieces of a range -/

variable {start stop batch : Nat}

theorem somePieces_nil (h : stop < start) : ∀ n, somePieces n start stop batch = []
  | 0 => rfl
  | _ + 1 => if_neg (Nat.not_le_of_lt h)

theorem somePieces_cons (h : start ≤ stop) (n : Nat) : somePieces (n + 1) start stop batch =
    (start, pieceEnd start stop batch) :: somePieces n (pieceEnd start stop batch + 1) stop batch := if_pos h

/-- Further pieces are asked for in vain. -/
theorem somePieces_eq : ∀ {n m start : Nat}, stop + 1 - start ≤ n → stop + 1 - start ≤ m →
    somePieces n start stop batch = somePieces m start stop batch
  | n, m, start, hn, hm => by
    by_cases hle : start ≤ stop
    · obtain ⟨n, rfl⟩ : ∃ k, n = k + 1 := Nat.exists_eq_add_one.mpr (by omega)
      obtain ⟨m, rfl⟩ : ∃ k, m = k + 1 := Nat.exists_eq_add_one.mpr (by omega)
      have hend : start ≤ pieceEnd start stop batch := le_pieceEnd hle
      rw [somePieces_cons hle, somePieces_cons hle]
      exact congrArg _ (somePieces_eq (by omega) (by omega))
    · rw [somePieces_nil (by omega), somePieces_nil (by omega)]

theorem pieces_nil (h : stop < start) : pieces start stop batch = [] := somePieces_nil h _

theorem pieces_cons (h : start ≤ stop) : pieces start stop batch =
    (start, pieceEnd start stop batch) :: pieces (pieceEnd start stop batch + 1) stop batch := by
  have hle : start ≤ pieceEnd start stop batch := le_pieceEnd h
  unfold pieces
  rw [show stop + 1 - start = stop - start + 1 by omega, somePieces_cons h]
  congr 1
  exact somePieces_eq (by omega) le_rfl

/-- A batch of zero acts as one. -/
theorem somePieces_max_one : ∀ {n start : Nat},
    somePieces n start stop (max batch 1) = somePieces n start stop batch
  | 0, _ => rfl
  | n + 1, start => by
    have hend : pieceEnd start stop (max batch 1) = pieceEnd start stop batch := by
      unfold pieceEnd
      omega
    by_cases hle : start ≤ stop
    · rw [somePieces_cons hle, somePieces_cons hle, hend, somePieces_max_one]
    · rw [somePieces_nil (by omega), somePieces_nil (by omega)]

/-- A piece that is not the last one is full: were it cut off, it would end with the range. -/
theorem somePieces_full : ∀ {n start : Nat}, ∀ p ∈ (somePieces n start stop batch).dropLast,
    p.2 + 1 - p.1 = max batch 1
  | n + 1, start, p, hp => by
    by_cases hle : start ≤ stop
    · rw [somePieces_cons hle] at hp
      by_cases hend : pieceEnd start stop batch < stop
      · rcases hrest : somePieces n (pieceEnd start stop batch + 1) stop batch with _ | ⟨q, rest⟩
        · rw [hrest] at hp
          cases hp
        · rw [hrest, List.dropLast_cons_cons, List.mem_cons, ← hrest] at hp
          rcases hp with rfl | hp
          · unfold pieceEnd at hend ⊢
            dsimp only
            omega
          · exact somePieces_full p hp
      · rw [somePieces_nil (by omega)] at hp
        cases hp
    · rw [somePieces_nil (by omega)] at hp
      cases hp

/-- **The pieces of a range cut it.** -/
theorem pieces_cut (start stop batch : Nat) : Cut start stop (max batch 1) (pieces start stop batch) := by
  rcases Nat.lt_or_ge stop start with h | h
  · rw [pieces_nil h]
    exact {
      eq_nil_iff := iff_of_true rfl h
      nonempty := nofun
      head := nofun
      chain := .nil
      getLast := nofun
      full := nofun
      length_le := nofun
      once := fun k => by rw [List.countP_nil, if_neg (by omega)] }
  · have htiles : Tiles (max batch 1) start (stop + 1) (pieces start stop batch) := pieces_tile (by omega)
    exact {
      eq_nil_iff := htiles.eq_nil_iff.trans (by omega)
      nonempty := fun p hp => (htiles.bounds p hp).1
      head := htiles.head
      chain := htiles.chain
      getLast := fun p hp => Nat.succ.inj (htiles.getLast p hp)
      full := somePieces_full
      length_le := fun p hp => by
        have := htiles.bounds p hp
        omega
      once := fun k => (htiles.once k).trans (if_congr (by omega) rfl rfl) }

end StakeTrail.Indexing
