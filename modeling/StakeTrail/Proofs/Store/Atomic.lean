import Mathlib
import StakeTrail.Proofs.Store.Commits
import StakeTrail.Proofs.Store.Mirrors
import StakeTrail.Proofs.Text.Decimal

/-!
# Commits are atomic and keep to their table

A `Batch` is what one commit writes: rows of one of the nine tables. Its statements touch neither the checkpoints nor any
other table, and end with a fault of their own only over a stored amount that is no numeral (`Batch.Writes`). So three
questions settle what a commit does: whether a statement was refused, whether the stored amounts that it reads are
numerals (`Batch.Legible`), and whether the checkpoint was set up (`commit_cases`).

* **The main statement** (`commit_atomic`): a commit that succeeds moves its own checkpoint to the greater height and
  touches no other checkpoint and no other table; one that fails leaves everything as it was.
-/

namespace StakeTrail.Store

open StakeTrail.Action Database

variable {α ρ : Type} {t u : Tables} {d : Database}

/-- **A transaction that fails leaves the tables as they were**, wherever it fails. -/
theorem transaction_error {x : Action Database α} {e : Fault} (h : (transaction x d).1 = .error e) :
    (transaction x d).2.tables = d.tables := by
  unfold transaction at h ⊢
  simp only at h ⊢
  split <;> rename_i hd
  · rw [hd] at h
    cases h
  · rfl

/-! ## Batches -/

/-- What one commit writes: rows of one table, and for votes the height below which they are removed. -/
inductive Batch
  | consensusBlocks (rows : List ConsensusBlock)
  | executionBlocks (rows : List ExecutionBlock)
  | consensusEvents (rows : List Staking.ConsensusEvent)
  | executionEvents (rows : List Staking.ExecutionEvent)
  | totals (rows : List Stake.Point)
  | history (rows : List Stake.HistoryPoint)
  | intervals (rows : List Uptime.Interval)
  | votes (rows : List Uptime.Vote) (keepFrom : Nat)
  | rewards (rows : List Reward.Delta)

namespace Batch

/-- Commits a batch. -/
def commit (name : String) (height : Nat) : Batch → Action Database Unit
  | consensusBlocks rows => Commit.consensusBlocks name rows height
  | executionBlocks rows => Commit.executionBlocks name rows height
  | consensusEvents rows => Commit.consensusEvents name rows height
  | executionEvents rows => Commit.executionEvents name rows height
  | totals rows => Commit.totals name rows height
  | history rows => Commit.history name rows height
  | intervals rows => Commit.intervals name rows height
  | votes rows keepFrom => Commit.votes name rows keepFrom height
  | rewards rows => Commit.rewards name rows height

/-- The tables of the other batches. -/
def others : Batch → Tables → Tables
  | consensusBlocks _, t => { t with checkpoints := [], consensusBlocks := [] }
  | executionBlocks _, t => { t with checkpoints := [], executionBlocks := [] }
  | consensusEvents _, t => { t with checkpoints := [], consensusEvents := [] }
  | executionEvents _, t => { t with checkpoints := [], executionEvents := [] }
  | totals _, t => { t with checkpoints := [], totals := [] }
  | history _, t => { t with checkpoints := [], history := [] }
  | intervals _, t => { t with checkpoints := [], intervals := [] }
  | votes _ _, t => { t with checkpoints := [], votes := [] }
  | rewards _, t => { t with checkpoints := [], rewards := [] }

/-- The stored amounts of some addresses are numerals. -/
def AmountsLegible (rows : List Reward.Delta) (t : Tables) : Prop :=
  ∀ delta ∈ rows, ∀ r, Keyed.get? RewardRow.address delta.address t.rewards = some r → ∃ n, readReward r.amount = .ok n

/-- Whether the stored values that a batch adds to can be read; only rewards add to what is stored as text. -/
def Legible : Batch → Tables → Prop
  | rewards rows, t => AmountsLegible rows t
  | _, _ => True

/-- **What the statements of a batch do**: they keep to its table, and fail exactly over a stored amount. -/
structure Writes (b : Batch) (x : Action Database Unit) (y : Action Tables Unit) : Prop where
  mirrors : Mirrors x y
  others : ∀ t, b.others (y t).2 = b.others t
  checkpoints : ∀ t, (y t).2.checkpoints = t.checkpoints
  outcome : ∀ t, b.Legible t ∧ (y t).1 = .ok () ∨
    ¬ b.Legible t ∧ ∃ raw why, (y t).1 = .error (.decode (.storedReward raw why))

/-! ### Statements that cannot fail by themselves -/

/-- An action on the tables that succeeds, keeps to the table of a batch and leaves the checkpoints. -/
def Tame (b : Batch) (y : Action Tables Unit) : Prop :=
  ∀ t, (y t).1 = .ok () ∧ b.others (y t).2 = b.others t ∧ (y t).2.checkpoints = t.checkpoints

theorem Tame.bind {b : Batch} {y z : Action Tables Unit} (hy : Tame b y) (hz : Tame b z) :
    Tame b (y >>= fun _ => z) := by
  intro t
  obtain ⟨hok, hothers, hcheckpoints⟩ := hy t
  rw [bind_apply]
  rcases hyt : y t with ⟨e | a, u⟩ <;> rw [hyt] at hok hothers hcheckpoints
  · cases hok
  · obtain ⟨hok', hothers', hcheckpoints'⟩ := hz u
    exact ⟨hok', hothers'.trans hothers, hcheckpoints'.trans hcheckpoints⟩

theorem Tame.each {b : Batch} {g : ρ → Action Tables Unit} (hg : ∀ r, Tame b (g r)) :
    ∀ {rows : List ρ}, Tame b (Action.each g rows)
  | [] => fun _ => ⟨rfl, rfl, rfl⟩
  | r :: _ => (hg r).bind (Tame.each hg)

theorem Tame.update {b : Batch} {f : Tables → Tables} (h : ∀ t, b.others (f t) = b.others t)
    (h' : ∀ t, (f t).checkpoints = t.checkpoints) : Tame b (update f) := fun t => ⟨rfl, h t, h' t⟩

theorem Tame.writes {b : Batch} {x : Action Database Unit} {y : Action Tables Unit} (hy : Tame b y)
    (hx : Mirrors x y) (hb : ∀ t, b.Legible t) : Writes b x y :=
  ⟨hx, fun t => (hy t).2.1, fun t => (hy t).2.2, fun t => .inl ⟨hb t, (hy t).1⟩⟩

/-- Rows that are each written by one statement. -/
theorem writes_each {b : Batch} {f : ρ → Tables → Tables} (h : ∀ r t, b.others (f r t) = b.others t)
    (h' : ∀ r t, (f r t).checkpoints = t.checkpoints) (hb : ∀ t, b.Legible t) {rows : List ρ} :
    Writes b (each (fun r => write (f r)) rows) (each (fun r => update (f r)) rows) :=
  (Tame.each fun r => Tame.update (h r) (h' r)).writes (.each (fun _ => .write _) rows) hb

/-! ### Rewards -/

/-- What is left of adding a delta when no statement is refused. -/
def addedReward (delta : Reward.Delta) : Action Tables Unit := do
  let row ← stated fun t => (Keyed.get? RewardRow.address delta.address t.rewards, t)
  let stored ←
    match row with
    | none => pure none
    | some r => do
      let amount ← Action.ofExcept (readReward r.amount)
      pure (some ⟨delta.address, amount, Word.readBack r.height⟩)
  let total := Reward.merge stored delta
  update fun t =>
    { t with rewards := Keyed.put RewardRow.address ⟨total.address, toString total.amount, total.height⟩ t.rewards }

theorem addReward_mirrors (delta : Reward.Delta) : Mirrors (addReward delta) (addedReward delta) := by
  unfold addReward addedReward
  refine (Mirrors.query _).bind fun row => ?_
  rcases row with _ | r
  · exact (Mirrors.pure none).bind fun _ => .write _
  · exact (Mirrors.ofExcept _).bind fun _ => (Mirrors.pure _).bind fun _ => .write _

/-- **Adding a delta** writes an amount that can be read, or stops at a stored one that cannot. -/
theorem addedReward_cases (delta : Reward.Delta) (t : Tables) :
    (AmountsLegible [delta] t ∧ ∃ n height : Nat, addedReward delta t =
      (.ok (), { t with rewards := Keyed.put RewardRow.address ⟨delta.address, toString n, height⟩ t.rewards })) ∨
    ¬ AmountsLegible [delta] t ∧ ∃ raw why, addedReward delta t = (.error (.decode (.storedReward raw why)), t) := by
  have single : AmountsLegible [delta] t ↔ ∀ r, Keyed.get? RewardRow.address delta.address t.rewards = some r →
      ∃ n, readReward r.amount = .ok n := by
    simp [AmountsLegible]
  rw [single]
  rcases hrow : Keyed.get? RewardRow.address delta.address t.rewards with _ | r
  · refine .inl ⟨by simp, delta.amount, delta.height, ?_⟩
    simp [addedReward, bind_apply, stated, hrow, Reward.merge]
  · rcases hr : readReward r.amount with why | n
    · refine .inr ⟨by simp [hr], ?_⟩
      obtain ⟨raw, flaw, hwhy⟩ : ∃ raw flaw, why = .decode (.storedReward raw flaw) := by
        unfold readReward at hr
        split at hr
        · cases hr
        · exact ⟨_, _, (Except.error.inj hr).symm⟩
      exact ⟨raw, flaw, by simp [addedReward, bind_apply, stated, hrow, hr, hwhy]⟩
    · refine .inl ⟨by simp [hr], n + delta.amount, max (Word.readBack r.height) delta.height, ?_⟩
      simp [addedReward, bind_apply, stated, hrow, hr, Reward.merge]

theorem readReward_toString (n : Nat) : readReward (toString n) = .ok n := by
  rw [readReward, Text.Numeral.large_toString]

/-- Writing a legible amount does not change which other amounts are legible. -/
theorem amountsLegible_put {delta : Reward.Delta} {n height : Nat} (rows : List Reward.Delta)
    (h : AmountsLegible [delta] t) :
    AmountsLegible rows { t with
      rewards := Keyed.put RewardRow.address ⟨delta.address, toString n, height⟩ t.rewards } ↔
      AmountsLegible (delta :: rows) t := by
  have hd := h delta List.mem_cons_self
  unfold AmountsLegible
  simp only [Keyed.get?_put, List.mem_cons, forall_eq_or_imp]
  refine ⟨fun hput => ⟨hd, fun e he r hr => ?_⟩, fun hall e he r hr => ?_⟩
  · by_cases hsame : delta.address = e.address
    · exact hd r (hsame ▸ hr)
    · exact hput e he r (by rwa [if_neg hsame])
  · by_cases hsame : delta.address = e.address
    · rw [if_pos hsame] at hr
      cases hr
      exact ⟨n, readReward_toString n⟩
    · rw [if_neg hsame] at hr
      exact hall.2 e he r hr

/-- **Deltas are added** up to the first stored amount that cannot be read, and touch nothing but the rewards. -/
theorem each_addedReward (all : List Reward.Delta) : ∀ (rows : List Reward.Delta) (t : Tables),
    (rewards all).others (each addedReward rows t).2 = (rewards all).others t ∧
    (each addedReward rows t).2.checkpoints = t.checkpoints ∧
    (AmountsLegible rows t ∧ (each addedReward rows t).1 = .ok () ∨
      ¬ AmountsLegible rows t ∧ ∃ raw why, (each addedReward rows t).1 = .error (.decode (.storedReward raw why)))
  | [], t => ⟨rfl, rfl, .inl ⟨by simp [AmountsLegible], rfl⟩⟩
  | delta :: rows, t => by
    rw [each, bind_apply]
    rcases addedReward_cases delta t with ⟨hl, n, height, h⟩ | ⟨hl, raw, why, h⟩ <;> rw [h] <;> simp only
    · obtain ⟨hothers, hcheckpoints, hout⟩ := each_addedReward all rows
        { t with rewards := Keyed.put RewardRow.address ⟨delta.address, toString n, height⟩ t.rewards }
      rw [amountsLegible_put rows hl] at hout
      exact ⟨hothers, hcheckpoints, hout⟩
    · refine ⟨trivial, trivial, .inr ⟨fun hall => hl fun e he => ?_, raw, why, rfl⟩⟩
      rw [List.mem_singleton.mp he]
      exact hall delta List.mem_cons_self

/-! ### All batches -/

/-- **Every commit is a transaction** of statements that keep to the table of the batch. -/
theorem commit_writes (b : Batch) : ∃ (x : Action Database Unit) (y : Action Tables Unit),
    (∀ name height, b.commit name height = Commit.batch name height x) ∧ Writes b x y := by
  cases b with
  | consensusBlocks | executionBlocks | consensusEvents | executionEvents | totals | intervals =>
    refine ⟨_, _, fun _ _ => rfl, writes_each ?_ ?_ ?_⟩ <;> intros <;> trivial
  | history rows =>
    -- each row takes two statements
    have hrow : ∀ row : Stake.HistoryPoint, Tame (history rows) (do
        update fun t => { t with history := clearSecond row t.history }
        update fun t => { t with history := Keyed.put Stake.HistoryPoint.block row t.history }) := fun row =>
      Tame.bind (.update (fun _ => rfl) fun _ => rfl) (.update (fun _ => rfl) fun _ => rfl)
    refine ⟨_, _, fun _ _ => rfl, (Tame.each hrow).writes (.each (fun row => ?_) rows) fun _ => trivial⟩
    exact (Mirrors.write _).bind fun _ => .write _
  | votes rows keepFrom =>
    -- the rows come first, and what is too old goes last
    have hrows : Tame (votes rows keepFrom)
        (Action.each (fun row => update fun t => { t with votes := Keyed.keep voteKey row t.votes }) rows) :=
      Tame.each fun _ => by exact .update (fun _ => rfl) fun _ => rfl
    have hprune : Tame (votes rows keepFrom) (update fun t => { t with votes := pruneVotes keepFrom t.votes }) :=
      .update (fun _ => rfl) fun _ => rfl
    refine ⟨_, _, fun _ _ => rfl, (hrows.bind hprune).writes (Mirrors.bind ?_ fun _ => .write _) fun _ => trivial⟩
    exact .each (fun _ => .write _) rows
  | rewards rows =>
    have hrows := each_addedReward rows rows
    exact ⟨_, _, fun _ _ => rfl, .each addReward_mirrors rows, fun t => (hrows t).1, fun t => (hrows t).2.1,
      fun t => (hrows t).2.2⟩

end Batch

/-! ## The checkpoint -/

/-- What is left of moving a checkpoint when no statement is refused. -/
def movedCheckpoint (name : String) (height : Nat) : Action Tables Unit := do
  let moved ← stated fun t => (t.isBelow name height, t.advance name height)
  if moved then pure ()
  else do
    let found ← stated fun t => (t.checkpoint? name, t)
    match found with
    | some _ => pure ()
    | none => fail (.checkpointMissing name)

theorem advanceCheckpoint_mirrors (name : String) (height : Nat) :
    Mirrors (advanceCheckpoint name height) (movedCheckpoint name height) := by
  unfold advanceCheckpoint movedCheckpoint
  refine (Mirrors.statement _).bind fun moved => ?_
  split
  · exact .pure ()
  · refine (Mirrors.query _).bind fun found => ?_
    split
    · exact .pure ()
    · exact .fail _

/-- **A checkpoint is moved if it is there**, and missed if it is not. -/
theorem movedCheckpoint_apply (name : String) (height : Nat) (t : Tables) :
    movedCheckpoint name height t =
      (if (t.checkpoint? name).isSome then .ok () else .error (.checkpointMissing name), t.advance name height) := by
  have hadvance := checkpoint?_advance_map (t := t) name name height
  unfold movedCheckpoint
  rw [bind_apply]
  simp only [stated, Tables.isBelow]
  rcases hc : t.checkpoint? name with _ | c <;> rw [hc] at hadvance
  · simp [bind_apply, stated, hadvance]
  · by_cases hb : before c.height height
    · simp [hb]
    · simp [hb, bind_apply, stated, hadvance]

/-- Where the checkpoint of an indexer goes; the checkpoints of the others stay where they are. -/
def Moved (name : String) (height : Nat) (before after : Checkpoint) : Prop :=
  after.indexer = before.indexer ∧
    (before.indexer = name → Word.signed after.height = max (Word.signed before.height) height) ∧
    (before.indexer ≠ name → after.height = before.height)

theorem forall₂_advance (name : String) {height : Nat} (hh : height < 0x8000000000000000) (t : Tables) :
    List.Forall₂ (Moved name height) t.checkpoints (t.advance name height).checkpoints := by
  rw [Tables.advance, List.forall₂_map_right_iff, List.forall₂_same]
  intro c _
  have hsigned := Word.signed_of_lt hh
  by_cases hn : c.indexer = name
  · by_cases hb : before c.height height = true
    · have hlt : Word.signed c.height < height := by simpa [before, hsigned] using hb
      rw [if_pos ⟨hn, hb⟩]
      exact ⟨hn.symm, fun _ => by rw [hsigned]; omega, fun h => absurd hn h⟩
    · have hle : ¬ Word.signed c.height < height := by simpa [before, hsigned] using hb
      rw [if_neg fun h => hb h.2]
      exact ⟨rfl, fun _ => by omega, fun _ => rfl⟩
  · rw [if_neg fun h => hn h.1]
    exact ⟨rfl, fun h => absurd h hn, fun _ => rfl⟩

/-! ## Whole commits -/

theorem others_advance (b : Batch) (name : String) (height : Nat) (t : Tables) :
    b.others (t.advance name height) = b.others t := by
  cases b <;> rfl

/-- **What a commit does**: a statement was refused, an amount could not be read, the checkpoint is missing, or all is
well. -/
theorem commit_cases (b : Batch) (name : String) (height : Nat) (d : Database) :
    ¬ Quiet d (b.commit name height d).2 ∧ (b.commit name height d).1 = .error (.storage foreign) ∨
    Quiet d (b.commit name height d).2 ∧
      (¬ b.Legible d.tables ∧ (∃ raw why, (b.commit name height d).1 = .error (.decode (.storedReward raw why))) ∨
      b.Legible d.tables ∧
        (d.tables.checkpoint? name = none ∧ (b.commit name height d).1 = .error (.checkpointMissing name) ∨
        (∃ c, d.tables.checkpoint? name = some c) ∧ (b.commit name height d).1 = .ok () ∧
          (b.commit name height d).2.tables.checkpoints = (d.tables.advance name height).checkpoints ∧
          b.others (b.commit name height d).2.tables = b.others d.tables)) := by
  obtain ⟨x, y, heq, hw⟩ := b.commit_writes
  have hmirrors : Mirrors (b.commit name height) (undone (y >>= fun _ => movedCheckpoint name height)) := by
    rw [heq]
    exact (hw.mirrors.bind fun _ => advanceCheckpoint_mirrors name height).transaction
  rcases hmirrors.outcome d with ⟨hq, hout, htables⟩ | ⟨hq, hout⟩
  · refine .inr ⟨hq, ?_⟩
    -- what is left of the commit is computed on the tables
    have hothers := hw.others d.tables
    have hcheckpoints := hw.checkpoints d.tables
    have houtcome := hw.outcome d.tables
    rw [undone, bind_apply] at hout htables
    rcases hy : y d.tables with ⟨e | a, u⟩ <;> rw [hy] at hothers hcheckpoints houtcome hout htables <;>
      simp only at hothers hcheckpoints houtcome hout htables
    · obtain ⟨hl, raw, why, he⟩ := houtcome.resolve_left (by simp)
      exact .inl ⟨hl, raw, why, by rw [hout, he]⟩
    · have hl : b.Legible d.tables := (houtcome.resolve_right (by simp)).1
      have hsame : u.checkpoint? name = d.tables.checkpoint? name := by
        rw [Tables.checkpoint?, Tables.checkpoint?, hcheckpoints]
      rw [movedCheckpoint_apply, hsame] at hout htables
      refine .inr ⟨hl, ?_⟩
      rcases hc : d.tables.checkpoint? name with _ | c <;> rw [hc] at hout htables <;>
        simp only [Option.isSome_none, Option.isSome_some, Bool.false_eq_true, if_false, if_true] at hout htables
      · exact .inl ⟨rfl, hout⟩
      · refine .inr ⟨⟨c, rfl⟩, hout, ?_, ?_⟩
        · rw [htables, Tables.advance, Tables.advance, hcheckpoints]
        · rw [htables, others_advance, hothers]
  · exact .inl ⟨hq, hout⟩

/-- A commit that fails leaves everything as it was. -/
theorem commit_error {b : Batch} {name : String} {height : Nat} {e : Fault}
    (h : (b.commit name height d).1 = .error e) : (b.commit name height d).2.tables = d.tables := by
  obtain ⟨x, -, heq, -⟩ := b.commit_writes
  rw [heq] at h ⊢
  exact transaction_error h

/-- **Commits are atomic and keep to their table.** A commit that succeeds moves its own checkpoint to the greater of the
two heights and touches no other checkpoint and no other table. One that fails leaves every table as it was, wherever it
stopped. It succeeds just when no statement is refused, the stored amounts that it reads are numerals and its checkpoint
was set up, and it misses the checkpoint just when that is all that is missing. -/
theorem commit_atomic (b : Batch) (name : String) {height : Nat} (hh : height < 0x8000000000000000) (d : Database) :
    ((b.commit name height d).1 = .ok () →
      List.Forall₂ (Moved name height) d.tables.checkpoints (b.commit name height d).2.tables.checkpoints ∧
      b.others (b.commit name height d).2.tables = b.others d.tables) ∧
    (∀ e, (b.commit name height d).1 = .error e → (b.commit name height d).2.tables = d.tables) ∧
    ((b.commit name height d).1 = .ok () ↔
      Quiet d (b.commit name height d).2 ∧ b.Legible d.tables ∧ ∃ c, d.tables.checkpoint? name = some c) ∧
    (∀ n, (b.commit name height d).1 = .error (.checkpointMissing n) ↔
      n = name ∧ Quiet d (b.commit name height d).2 ∧ b.Legible d.tables ∧ d.tables.checkpoint? name = none) := by
  refine ⟨fun hok => ?_, fun e he => commit_error he, ?_⟩
  · rcases commit_cases b name height d with
      ⟨-, h⟩ | ⟨-, ⟨-, _, _, h⟩ | ⟨-, ⟨-, h⟩ | ⟨-, -, hcheckpoints, hothers⟩⟩⟩
    · rw [h] at hok
      cases hok
    · rw [h] at hok
      cases hok
    · rw [h] at hok
      cases hok
    · refine ⟨?_, hothers⟩
      rw [hcheckpoints]
      exact forall₂_advance name hh d.tables
  · rcases commit_cases b name height d with ⟨hq, h⟩ | ⟨hq, ⟨hl, _, _, h⟩ | ⟨hl, ⟨hc, h⟩ | ⟨⟨c, hc⟩, h, -⟩⟩⟩
    · simp [h, hq]
    · simp [h, hl]
    · simp [h, hq, hl, hc, eq_comm]
    · simp [h, hq, hl, hc]

/-! ### A commit that is broken off -/

/-- Rewards of an address at height 7, in a database that refuses the statements that are asked of it. -/
def sampleShelf (refused : Nat → Bool) : Database where
  tables := { checkpoints := [⟨"rewards", 7⟩, ⟨"votes", 9⟩], rewards := [⟨"0xa", "5", 7⟩] }
  refusal n := if refused n then some .io else none

/-- Two deltas of one address and one of another. -/
def sampleDeltas : Batch := .rewards [⟨"0xa", 2, 8⟩, ⟨"0xa", 3, 9⟩, ⟨"0xb", 1, 9⟩]

/-- All goes well, and both deltas of the address are added. -/
example : (sampleDeltas.commit "rewards" 12 (sampleShelf fun _ => false)).2.tables =
    { checkpoints := [⟨"rewards", 12⟩, ⟨"votes", 9⟩], rewards := [⟨"0xa", "10", 9⟩, ⟨"0xb", "1", 9⟩] } := by cbv

/-- **A commit that is refused a statement after it wrote two rows** leaves the tables as they were, as does one for a
checkpoint that was never set up; one that is refused nothing moves its checkpoint alone. -/
theorem sampleDeltas_atomic :
    ((sampleDeltas.commit "rewards" 12 (sampleShelf (· = 6))).1 = .error (.storage foreign) ∧
      (sampleDeltas.commit "rewards" 12 (sampleShelf (· = 6))).2.tables = (sampleShelf (· = 6)).tables) ∧
    ((sampleDeltas.commit "reward" 12 (sampleShelf fun _ => false)).1 = .error (.checkpointMissing "reward") ∧
      (sampleDeltas.commit "reward" 12 (sampleShelf fun _ => false)).2.tables = (sampleShelf fun _ => false).tables) ∧
    (sampleDeltas.commit "rewards" 12 (sampleShelf fun _ => false)).1 = .ok () ∧
      List.Forall₂ (Moved "rewards" 12) (sampleShelf fun _ => false).tables.checkpoints
        (sampleDeltas.commit "rewards" 12 (sampleShelf fun _ => false)).2.tables.checkpoints := by
  have hrefused : (sampleDeltas.commit "rewards" 12 (sampleShelf (· = 6))).1 = .error (.storage foreign) := by cbv
  have hmissing : (sampleDeltas.commit "reward" 12 (sampleShelf fun _ => false)).1 =
      .error (.checkpointMissing "reward") := by cbv
  have hok : (sampleDeltas.commit "rewards" 12 (sampleShelf fun _ => false)).1 = .ok () := by cbv
  have hlt : 12 < 0x8000000000000000 := by decide
  exact ⟨⟨hrefused, (commit_atomic sampleDeltas "rewards" hlt _).2.1 _ hrefused⟩,
    ⟨hmissing, (commit_atomic sampleDeltas "reward" hlt _).2.1 _ hmissing⟩,
    hok, ((commit_atomic sampleDeltas "rewards" hlt _).1 hok).1⟩

end StakeTrail.Store
