import StakeTrail.Proofs.Store.Keeps
import StakeTrail.Proofs.Text.NormalForm
import StakeTrail.Proofs.Uptime.Table

/-!
# The texts in the tables

Six columns hold addresses, and two the hashes of transactions. `NormalTexts t` says that all of them are in normal form,
and `Findable t` adds what a lookup relies on: each key is held once, and amounts can be read.

Every commit keeps the tables findable, as long as the texts of its own rows are normal; what is stored already plays no
part in that.
-/

namespace StakeTrail

/-- The texts of a row that spell a hash or an address. -/
def Staking.ExecutionEvent.texts (e : Staking.ExecutionEvent) : List String :=
  [e.txHash, e.address, e.source, e.target, e.targetAddress]

namespace Store

open StakeTrail.Action Address Database

variable {t : Tables} {name : String} {height : Nat}

/-- **All stored addresses and hashes are normal.** -/
structure NormalTexts (t : Tables) : Prop where
  rewards : ∀ r ∈ t.rewards, IsNormal r.address
  executionEvents : ∀ e ∈ t.executionEvents, ∀ text ∈ e.texts, IsNormal text
  consensusEvents : ∀ e ∈ t.consensusEvents, IsNormal e.txHash
  intervals : ∀ i ∈ t.intervals, IsNormal i.owner
  votes : ∀ v ∈ t.votes, IsNormal v.owner

/-- **Tables in which rows are found by their texts.** -/
structure Findable (t : Tables) : Prop extends NormalTexts t where
  rewards_once : (t.rewards.map RewardRow.address).Nodup
  amounts : ∀ r ∈ t.rewards, ∃ n : Nat, r.amount = toString n
  executionEvents_once : (t.executionEvents.map executionEventKey).Nodup
  consensusEvents_once : (t.consensusEvents.map consensusEventKey).Nodup
  intervals_once : (t.intervals.map Uptime.Interval.owner).Nodup

namespace Findable

theorem empty : Findable {} := by
  refine ⟨⟨?_, ?_, ?_, ?_, ?_⟩, ?_, ?_, ?_, ?_, ?_⟩ <;> simp

/-! ## One row more -/

theorem advance (h : Findable t) (name : String) (height : Nat) : Findable (t.advance name height) := { h with }

theorem setup (h : Findable t) (name : String) :
    Findable { t with checkpoints := Keyed.keep Checkpoint.indexer ⟨name, 0⟩ t.checkpoints } := { h with }

theorem putReward (h : Findable t) {address : String} (ha : IsNormal address) (amount height : Nat) :
    Findable { t with rewards := Keyed.put RewardRow.address ⟨address, toString amount, height⟩ t.rewards } := by
  refine { h with rewards := ?_, rewards_once := Keyed.nodup_put _ h.rewards_once, amounts := ?_ }
  · intro r hr
    rcases Keyed.mem_put hr with rfl | hr
    · exact ha
    · exact h.rewards r hr
  · intro r hr
    rcases Keyed.mem_put hr with rfl | hr
    · exact ⟨amount, rfl⟩
    · exact h.amounts r hr

theorem putExecutionEvent (h : Findable t) {e : Staking.ExecutionEvent} (he : ∀ text ∈ e.texts, IsNormal text) :
    Findable { t with executionEvents := Keyed.put executionEventKey e t.executionEvents } := by
  refine { h with executionEvents := ?_, executionEvents_once := Keyed.nodup_put _ h.executionEvents_once }
  intro e' he'
  rcases Keyed.mem_put he' with rfl | he'
  · exact he
  · exact h.executionEvents e' he'

theorem putConsensusEvent (h : Findable t) {e : Staking.ConsensusEvent} (he : IsNormal e.txHash) :
    Findable { t with consensusEvents := Keyed.put consensusEventKey e t.consensusEvents } := by
  refine { h with consensusEvents := ?_, consensusEvents_once := Keyed.nodup_put _ h.consensusEvents_once }
  intro e' he'
  rcases Keyed.mem_put he' with rfl | he'
  · exact he
  · exact h.consensusEvents e' he'

/-- An interval has its owner, whether it continues the stored one or takes its place. -/
theorem putInterval (h : Findable t) {i : Uptime.Interval} (hi : IsNormal i.owner) :
    Findable { t with intervals := Store.putInterval i t.intervals } := by
  rw [Uptime.putInterval_eq]
  refine { h with intervals := ?_, intervals_once := Keyed.nodup_put _ h.intervals_once }
  intro i' hi'
  rcases Keyed.mem_put hi' with rfl | hi'
  · rw [Uptime.owner_placed]
    exact hi
  · exact h.intervals i' hi'

theorem keepVote (h : Findable t) {v : Uptime.Vote} (hv : IsNormal v.owner) :
    Findable { t with votes := Keyed.keep voteKey v t.votes } := by
  refine { h with votes := ?_ }
  intro v' hv'
  unfold Keyed.keep at hv'
  split at hv'
  · exact h.votes v' hv'
  · rcases List.mem_append.mp hv' with hv' | hv'
    · exact h.votes v' hv'
    · rw [List.mem_singleton.mp hv']
      exact hv

theorem pruneVotes (h : Findable t) (keepFrom : Nat) :
    Findable { t with votes := Store.pruneVotes keepFrom t.votes } :=
  { h with votes := fun v hv => h.votes v (List.mem_filter.mp hv).1 }

/-! ## Commits -/

/-- A commit of rows that are written one after the other. -/
theorem keeps_batch {ρ : Type} {f : ρ → Tables → Tables} {rows : List ρ}
    (hf : ∀ row ∈ rows, ∀ t, Findable t → Findable (f row t)) :
    Keeps Findable (Commit.batch name height (each (fun row => write (f row)) rows)) :=
  .batch (fun _ h => h.advance name height) (.each_write hf)

theorem keeps_consensusBlocks (rows : List ConsensusBlock) :
    Keeps Findable (Commit.consensusBlocks name rows height) :=
  keeps_batch fun _ _ _ h => { h with }

theorem keeps_executionBlocks (rows : List ExecutionBlock) :
    Keeps Findable (Commit.executionBlocks name rows height) :=
  keeps_batch fun _ _ _ h => { h with }

theorem keeps_totals (rows : List Stake.Point) : Keeps Findable (Commit.totals name rows height) :=
  keeps_batch fun _ _ _ h => { h with }

theorem keeps_history (rows : List Stake.HistoryPoint) : Keeps Findable (Commit.history name rows height) := by
  refine .batch (fun _ h => h.advance name height) (.each fun row _ => ?_)
  apply Keeps.bind
  · exact .write fun _ h => { h with }
  · exact fun _ => .write fun _ h => { h with }

theorem keeps_consensusEvents {rows : List Staking.ConsensusEvent} (hrows : ∀ e ∈ rows, IsNormal e.txHash) :
    Keeps Findable (Commit.consensusEvents name rows height) :=
  keeps_batch fun e he _ h => h.putConsensusEvent (hrows e he)

theorem keeps_executionEvents {rows : List Staking.ExecutionEvent}
    (hrows : ∀ e ∈ rows, ∀ text ∈ e.texts, IsNormal text) :
    Keeps Findable (Commit.executionEvents name rows height) :=
  keeps_batch fun e he _ h => h.putExecutionEvent (hrows e he)

theorem keeps_intervals {rows : List Uptime.Interval} (hrows : ∀ i ∈ rows, IsNormal i.owner) :
    Keeps Findable (Commit.intervals name rows height) :=
  keeps_batch fun i hi _ h => h.putInterval (hrows i hi)

theorem keeps_votes {rows : List Uptime.Vote} (hrows : ∀ v ∈ rows, IsNormal v.owner) (keepFrom : Nat) :
    Keeps Findable (Commit.votes name rows keepFrom height) := by
  apply Keeps.batch fun _ h => h.advance name height
  apply Keeps.bind
  · exact .each_write fun v hv _ h => h.keepVote (hrows v hv)
  · exact fun _ => .write fun _ h => h.pruneVotes keepFrom

theorem keeps_addReward {delta : Reward.Delta} (hd : IsNormal delta.address) : Keeps Findable (addReward delta) :=
  .addReward fun amount height _ h => h.putReward hd amount height

theorem keeps_rewards {rows : List Reward.Delta} (hrows : ∀ d ∈ rows, IsNormal d.address) :
    Keeps Findable (Commit.rewards name rows height) :=
  .batch (fun _ h => h.advance name height) (.each fun d hd => keeps_addReward (hrows d hd))

theorem keeps_seedTotal (point : Stake.Point) : Keeps Findable (seedTotal point) :=
  .write fun _ h => { h with }

theorem keeps_seedHistory (row : Stake.HistoryPoint) : Keeps Findable (seedHistory row) :=
  .write fun _ h => { h with }

end Findable

end Store

end StakeTrail
