import Mathlib
import StakeTrail.Indexing.Consensus
import StakeTrail.Proofs.Chain.Honest

/-!
# The rows of a chain

The rows of a block have its height (`rowsFrom_block`). As long as places are half words those in a block are distinct
(`rowsFrom_ascend`), so over a whole chain the key of a row determines it (`mem_rows_unique`). A batch of heights gives
the rows of each of them (`mem_rowsOfHeights`), or nothing when a block cannot be classified.
-/

namespace StakeTrail

open Staking

namespace Staking

variable {block index : Nat} {event : EventRecord} {events : List EventRecord} {rows : List ConsensusEvent}

/-- The row of an event of a kind. -/
def rowOf (block index : Nat) (event : EventRecord) (kind : Kind) : ConsensusEvent where
  block := block
  index := index
  kind := kind
  txHash := Address.normalForm ((event.get? "tx_hash").getD "")
  succeeded := (event.get? "error_code").isNone
  errorCode := (event.get? "error_code").getD ""
  amount := (event.get? "amount").getD ""

/-- **What becomes of an event**: it is passed over, or it has a row of its actual kind. -/
theorem rowOfEvent_eq {row : Option ConsensusEvent} (h : rowOfEvent block index event = .ok row) :
    (Classify.baseKind? event.kind = none ∧ row = none) ∨
      ∃ base kind, Classify.baseKind? event.kind = some base ∧ Classify.actualKind event base = .ok kind ∧
        row = some (rowOf block index event kind) := by
  unfold rowOfEvent at h
  rcases hbase : Classify.baseKind? event.kind with _ | base <;> simp only [hbase] at h
  · exact .inl ⟨rfl, (Except.ok.inj h).symm⟩
  · rcases hkind : Classify.actualKind event base with e | kind <;> simp only [hkind, bind, Except.bind] at h
    · cases h
    · exact .inr ⟨base, kind, rfl, hkind, (Except.ok.inj h).symm⟩

theorem rowOfEvent_place {r : ConsensusEvent} (h : rowOfEvent block index event = .ok (some r)) :
    r.block = block ∧ r.index = index := by
  rcases rowOfEvent_eq h with ⟨-, hr⟩ | ⟨base, kind, -, -, hr⟩ <;> cases hr
  exact ⟨rfl, rfl⟩

/-- The rows of a block one event longer. -/
theorem rowsFrom_cons (h : rowsFrom block index (event :: events) = .ok rows) :
    ∃ row others, rowOfEvent block (Word.half index) event = .ok row ∧ rowsFrom block (index + 1) events = .ok others ∧
      rows = row.toList ++ others := by
  unfold rowsFrom at h
  rcases hrow : rowOfEvent block (Word.half index) event with e | row <;> simp only [hrow, bind, Except.bind] at h
  · cases h
  rcases hrest : rowsFrom block (index + 1) events with e | others <;> simp only [hrest] at h <;> cases h
  exact ⟨row, others, rfl, rfl, rfl⟩

/-- **The rows of a block** have its height. -/
theorem rowsFrom_block : ∀ {events : List EventRecord} {index : Nat} {rows : List ConsensusEvent},
    rowsFrom block index events = .ok rows → ∀ r ∈ rows, r.block = block
  | [], _, _, h => by
    cases h
    simp
  | event :: events, index, rows, h => by
    obtain ⟨row, others, hrow, hrest, rfl⟩ := rowsFrom_cons h
    intro r hr
    rcases List.mem_append.mp hr with hr | hr
    · exact (rowOfEvent_place (Option.mem_toList.mp hr ▸ hrow)).1
    · exact rowsFrom_block hrest r hr

/-- **Their places ascend** from the first one on, as long as all of them are half words. -/
theorem rowsFrom_ascend : ∀ {events : List EventRecord} {index : Nat} {rows : List ConsensusEvent},
    index + events.length ≤ Word.topHalf → rowsFrom block index events = .ok rows →
      (∀ r ∈ rows, index ≤ r.index) ∧ rows.Pairwise fun r s => r.index < s.index
  | [], _, _, _, h => by
    cases h
    exact ⟨by simp, .nil⟩
  | event :: events, index, rows, hfew, h => by
    rw [List.length_cons] at hfew
    obtain ⟨row, others, hrow, hrest, rfl⟩ := rowsFrom_cons h
    obtain ⟨hfrom, hsorted⟩ := rowsFrom_ascend (by omega) hrest
    rcases row with _ | r
    · exact ⟨fun s hs => (Nat.le_succ _).trans (hfrom s hs), hsorted⟩
    · have hindex : r.index = index := by rw [(rowOfEvent_place hrow).2, Word.half_of_le (by omega)]
      refine ⟨fun s hs => ?_, List.pairwise_cons.mpr ⟨fun s hs => ?_, hsorted⟩⟩
      · rcases List.mem_cons.mp hs with rfl | hs
        · exact hindex.ge
        · exact (Nat.le_succ _).trans (hfrom s hs)
      · have := hfrom s hs
        omega

end Staking

namespace ConsensusChain

variable {chain : ConsensusChain} {h : Nat} {r s : ConsensusEvent}

/-- The rows of a height; none where the block cannot be classified. -/
def rows (chain : ConsensusChain) (h : Nat) : List ConsensusEvent :=
  (rowsOfBlock h (chain.events h)).toOption.getD []

/-- Whether the block of a height can be classified. -/
def Classified (chain : ConsensusChain) (h : Nat) : Prop := ∃ rows, rowsOfBlock h (chain.events h) = .ok rows

theorem Classified.rows_eq (hc : chain.Classified h) : rowsOfBlock h (chain.events h) = .ok (chain.rows h) := by
  obtain ⟨rows, hrows⟩ := hc
  rw [ConsensusChain.rows, hrows]
  rfl

theorem rows_block (hr : r ∈ chain.rows h) : r.block = h := by
  unfold ConsensusChain.rows at hr
  rcases hrows : rowsOfBlock h (chain.events h) with e | rows <;> rw [hrows] at hr
  · cases hr
  · exact rowsFrom_block hrows r hr

theorem rows_ascend (hn : chain.Numbered) (h : Nat) : (chain.rows h).Pairwise fun r s => r.index < s.index := by
  unfold ConsensusChain.rows
  rcases hrows : rowsOfBlock h (chain.events h) with e | rows
  · exact .nil
  · exact (rowsFrom_ascend ((Nat.zero_add _).trans_le (hn h)) hrows).2

/-- **The place of a row determines it.** -/
theorem mem_rows_unique (hn : chain.Numbered) (hr : r ∈ chain.rows h) (hs : s ∈ chain.rows h)
    (hindex : r.index = s.index) : r = s := by
  have hnodup : ((chain.rows h).map ConsensusEvent.index).Nodup :=
    List.pairwise_map.mpr ((rows_ascend hn h).imp Nat.ne_of_lt)
  exact List.inj_on_of_nodup_map hnodup hr hs hindex

theorem nodup_rows (hn : chain.Numbered) (h : Nat) : (chain.rows h).Nodup :=
  (rows_ascend hn h).imp fun hlt heq => by simp [heq] at hlt

end ConsensusChain

namespace Indexing.Consensus

variable {chain : ConsensusChain}

/-- **The rows of a batch** are those of its heights, all of which could be classified. -/
theorem mem_rowsOfHeights : ∀ {n first : Nat} {rows : List ConsensusEvent},
    rowsOfHeights first ((List.range' first n).map chain.events) = .ok rows →
      (∀ h, first ≤ h → h < first + n → chain.Classified h) ∧
        ∀ r, r ∈ rows ↔ ∃ h, first ≤ h ∧ h < first + n ∧ r ∈ chain.rows h
  | 0, first, rows, hrows => by
    cases hrows
    exact ⟨fun h _ _ => by omega, fun r => ⟨by simp, fun ⟨h, _, _, _⟩ => by omega⟩⟩
  | n + 1, first, rows, hrows => by
    rw [List.range'_succ, List.map_cons] at hrows
    unfold rowsOfHeights at hrows
    rcases hhere : rowsOfBlock first (chain.events first) with e | here <;>
      simp only [hhere, bind, Except.bind] at hrows
    · cases hrows
    rcases hrest : rowsOfHeights (first + 1) ((List.range' (first + 1) n).map chain.events) with e | others <;>
      simp only [hrest] at hrows <;> cases hrows
    obtain ⟨hall, hmem⟩ := mem_rowsOfHeights hrest
    have hfirst : chain.Classified first := ⟨here, hhere⟩
    have heq : here = chain.rows first := Except.ok.inj (hhere.symm.trans hfirst.rows_eq)
    subst heq
    refine ⟨fun h h₁ h₂ => ?_, fun r => ?_⟩
    · by_cases hh : h = first
      · exact hh ▸ hfirst
      · exact hall h (by omega) (by omega)
    · rw [List.mem_append, hmem]
      constructor
      · rintro (hr | ⟨h, h₁, h₂, hr⟩)
        · exact ⟨first, by omega, by omega, hr⟩
        · exact ⟨h, by omega, by omega, hr⟩
      · rintro ⟨h, h₁, h₂, hr⟩
        by_cases hh : h = first
        · exact .inl (hh ▸ hr)
        · exact .inr ⟨h, by omega, by omega, hr⟩

end Indexing.Consensus

end StakeTrail
