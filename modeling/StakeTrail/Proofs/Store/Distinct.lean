import Mathlib
import StakeTrail.Store.Commit

/-!
# Keys that are held once

No two rows of a table share its key, and no two rows of the history share a block or a second (`Tables.Distinct`). A
database that enforces this refuses every statement that would leave two rows under one key (`Database.enforced`).

Statements that leave every key held once, each at the moment when it runs (`Admitted`), run the same way in such a
database as without the check (`each_enforced`).
-/

namespace StakeTrail.Store

open StakeTrail.Action Database

/-- **Every key is held once**; the history has two of them. -/
@[mk_iff]
structure Tables.Distinct (t : Tables) : Prop where
  checkpoints : (t.checkpoints.map Checkpoint.indexer).Nodup
  consensusBlocks : (t.consensusBlocks.map ConsensusBlock.height).Nodup
  executionBlocks : (t.executionBlocks.map ExecutionBlock.height).Nodup
  consensusEvents : (t.consensusEvents.map consensusEventKey).Nodup
  executionEvents : (t.executionEvents.map executionEventKey).Nodup
  totals : (t.totals.map Stake.Point.time).Nodup
  historyBlocks : (t.history.map Stake.HistoryPoint.block).Nodup
  historyTimes : (t.history.map Stake.HistoryPoint.time).Nodup
  intervals : (t.intervals.map Uptime.Interval.owner).Nodup
  votes : (t.votes.map voteKey).Nodup
  rewards : (t.rewards.map RewardRow.address).Nodup

instance (t : Tables) : Decidable t.Distinct := decidable_of_iff' _ (Tables.distinct_iff t)

/-- A checkpoint that moves keeps its name. -/
theorem Tables.Distinct.advance {t : Tables} (h : t.Distinct) (name : String) (height : Nat) :
    (t.advance name height).Distinct := by
  refine { h with checkpoints := ?_ }
  have hnames : (t.advance name height).checkpoints.map Checkpoint.indexer = t.checkpoints.map Checkpoint.indexer := by
    rw [Tables.advance, List.map_map]
    refine List.map_congr_left fun c _ => ?_
    rw [Function.comp_apply]
    split
    · rename_i hc
      exact hc.1.symm
    · rfl
  rw [hnames]
  exact h.checkpoints

/-! ## Statements under a check of the keys -/

/-- **A statement in a database that enforces the keys**: it is refused when it would leave two rows under one key. -/
def Database.enforced (f : Tables → Tables) : Action Database Unit := fun d =>
  if (f d.tables).Distinct then write f d
  else (.error (.storage foreign), { d with statements := d.statements + 1, refused := .database :: d.refused })

/-- Statements that leave every key held once, each where the ones before it end. -/
def Admitted : List (Tables → Tables) → Tables → Prop
  | [], _ => True
  | f :: rest, t => (f t).Distinct ∧ Admitted rest (f t)

/-- Statements that may come in any tables whose keys are held once. -/
theorem admitted_of_forall {statements : List (Tables → Tables)}
    (h : ∀ f ∈ statements, ∀ t : Tables, t.Distinct → (f t).Distinct) {t : Tables} (ht : t.Distinct) :
    Admitted statements t := by
  induction statements generalizing t with
  | nil => trivial
  | cons f rest ih =>
    have hf := h f List.mem_cons_self t ht
    exact ⟨hf, ih (fun g hg => h g (List.mem_cons_of_mem _ hg)) hf⟩

/-- More statements that are admitted where the first ones end. -/
theorem Admitted.append {front back : List (Tables → Tables)} {t : Tables} (hfront : Admitted front t)
    (hback : Admitted back (front.foldl (fun t f => f t) t)) : Admitted (front ++ back) t := by
  induction front generalizing t with
  | nil => exact hback
  | cons f rest ih => exact ⟨hfront.1, ih hfront.2 hback⟩

theorem Admitted.distinct {statements : List (Tables → Tables)} {t : Tables} (h : Admitted statements t)
    (ht : t.Distinct) : (statements.foldl (fun t f => f t) t).Distinct := by
  induction statements generalizing t with
  | nil => exact ht
  | cons f rest ih => exact ih h.2 h.1

/-- **Admitted statements are never refused for a key.** -/
theorem each_enforced {statements : List (Tables → Tables)} {d : Database} (h : Admitted statements d.tables) :
    each enforced statements d = each write statements d := by
  induction statements generalizing d with
  | nil => rfl
  | cons f rest ih =>
    have hf : enforced f d = write f d := if_pos h.1
    rw [each, each, bind_apply, bind_apply, hf]
    rcases hw : write f d with ⟨e | a, d'⟩
    · rfl
    · -- the statement was carried out, so the rest finds the tables that it left
      have htables : d'.tables = f d.tables := by
        unfold write statement at hw
        rcases hr : d.refusal d.statements with _ | trouble <;> rw [hr] at hw
        · cases hw
          rfl
        · cases hw
      exact ih (htables ▸ h.2)

/-- A transaction depends on what its statements do to the tables that it starts from. -/
theorem transaction_congr {α : Type} {x y : Action Database α} {d : Database}
    (h : ∀ d' : Database, d'.tables = d.tables → x d' = y d') : transaction x d = transaction y d := by
  have hcontact : (contact d).2.tables = d.tables := by
    unfold contact query statement
    rcases d.refusal d.statements with _ | trouble <;> rfl
  have hwhole : (do contact; let a ← x; contact; pure a : Action Database α) d =
      (do contact; let a ← y; contact; pure a : Action Database α) d := by
    rw [bind_apply, bind_apply]
    rcases hd : contact d with ⟨e | u, d'⟩
    · rfl
    · rw [hd] at hcontact
      simp only
      rw [bind_apply, bind_apply, h d' hcontact]
  unfold transaction
  simp only [hwhole]

/-- **A commit of admitted statements** is never refused for a key. -/
theorem batch_enforced {statements : List (Tables → Tables)} {d : Database} (h : Admitted statements d.tables)
    (name : String) (height : Nat) :
    Commit.batch name height (each enforced statements) d = Commit.batch name height (each write statements) d := by
  refine transaction_congr fun d' hd' => ?_
  rw [bind_apply, bind_apply, each_enforced (hd' ▸ h)]

end StakeTrail.Store
