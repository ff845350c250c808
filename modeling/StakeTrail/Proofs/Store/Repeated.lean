import Mathlib
import StakeTrail.Proofs.Checkpoints.Calls
import StakeTrail.Proofs.Store.Atomic
import StakeTrail.Proofs.Store.Distinct
import StakeTrail.Proofs.Store.Overwrites

/-!
# Committing once more

Seven of the nine batches write over what is stored; only intervals and rewards add to it (`Batch.Overwrites`). What such a
batch writes is a list of statements (`Batch.statements`), and what is left of them is `Batch.written`.

* Its statements leave every key held once, each where the ones before it end (`Batch.admitted`), so a database that
  enforces the keys refuses none of them.
* Writing the same rows over them leaves the same rows (`Batch.written_again`).

**The main statement** (`commit_repeated`): a second commit of the same batch leaves every table as the first one did, and
neither of them is ever refused for a key.
-/

namespace StakeTrail.Store

open StakeTrail.Action Database Stake Uptime

variable {t u : Tables} {d d₁ d₂ : Database} {r₁ r₂ : Except Fault Unit} {b : Batch} {name : String} {height : Nat}

/-! ## Tables with the same rows -/

/-- **Tables with the same rows**: those of the history may stand in another order. -/
structure SameRows (t u : Tables) : Prop where
  history : t.history.Perm u.history
  others : { t with history := [] } = { u with history := [] }

theorem SameRows.refl (t : Tables) : SameRows t t := ⟨.refl _, rfl⟩

theorem SameRows.advance (h : SameRows t u) (name : String) (height : Nat) :
    SameRows (t.advance name height) (u.advance name height) :=
  ⟨h.history, congrArg (Tables.advance name height) h.others⟩

/-- A checkpoint that is moved to a height is not moved there again. -/
theorem advance_advance (name : String) (height : Nat) (t : Tables) :
    (t.advance name height).advance name height = t.advance name height := by
  unfold Tables.advance
  simp only [List.map_map, Tables.mk.injEq, and_true]
  refine List.map_congr_left fun c _ => ?_
  rw [Function.comp_apply]
  by_cases hc : c.indexer = name ∧ before c.height height
  · have hstay : before height height = false := by simp [before]
    simp [hc, hstay]
  · rw [if_neg hc, if_neg hc]

/-! ## Tables with one key -/

/-- **A table with one key**: how its rows are read out of all tables and put back. A field of the tables keeps the laws of
this by definition. -/
structure Table (ρ κ : Type) where
  key : ρ → κ
  rows : Tables → List ρ
  set : List ρ → Tables → Tables
  rows_set : ∀ l t, rows (set l t) = l := by intros; rfl
  set_set : ∀ l m t, set l (set m t) = set l t := by intros; rfl
  set_rows : ∀ t, set (rows t) t = t := by intros; rfl
  set_advance : ∀ l t name height, set l (t.advance name height) = (set l t).advance name height := by intros; rfl
  rows_advance : ∀ t name height, rows (t.advance name height) = rows t := by intros; rfl
  nodup : ∀ {t : Tables}, t.Distinct → ((rows t).map key).Nodup
  distinct : ∀ {l : List ρ} {t : Tables}, t.Distinct → (l.map key).Nodup → (set l t).Distinct

namespace Table

/-- The blocks of the consensus chain. -/
def consensusBlocks : Table ConsensusBlock Nat where
  key := ConsensusBlock.height
  rows t := t.consensusBlocks
  set l t := { t with consensusBlocks := l }
  nodup h := h.consensusBlocks
  distinct h hl := { h with consensusBlocks := hl }

/-- The blocks of the execution chain. -/
def executionBlocks : Table ExecutionBlock Nat where
  key := ExecutionBlock.height
  rows t := t.executionBlocks
  set l t := { t with executionBlocks := l }
  nodup h := h.executionBlocks
  distinct h hl := { h with executionBlocks := hl }

/-- The events of the consensus chain. -/
def consensusEvents : Table Staking.ConsensusEvent (Nat × Nat) where
  key := consensusEventKey
  rows t := t.consensusEvents
  set l t := { t with consensusEvents := l }
  nodup h := h.consensusEvents
  distinct h hl := { h with consensusEvents := hl }

/-- The logs of the execution chain. -/
def executionEvents : Table Staking.ExecutionEvent (String × Nat) where
  key := executionEventKey
  rows t := t.executionEvents
  set l t := { t with executionEvents := l }
  nodup h := h.executionEvents
  distinct h hl := { h with executionEvents := hl }

/-- The points of the running total. -/
def totals : Table Point Int where
  key := Point.time
  rows t := t.totals
  set l t := { t with totals := l }
  nodup h := h.totals
  distinct h hl := { h with totals := hl }

variable {ρ κ : Type} [DecidableEq κ] (s : Table ρ κ) (rows : List ρ)

/-- The statements that write rows over those with their key. -/
def puts : List (Tables → Tables) := rows.map fun row t => s.set (Keyed.put s.key row (s.rows t)) t

theorem foldl_puts (t : Tables) : (s.puts rows).foldl (fun t f => f t) t = s.set (Keyed.putAll s.key rows (s.rows t)) t := by
  unfold puts
  rw [List.foldl_map]
  exact foldl_into (Keyed.put s.key) s.rows s.set s.rows_set s.set_set s.set_rows rows t

/-- Written again, the rows change nothing. -/
theorem foldl_puts_again (t : Tables) : (s.puts rows).foldl (fun t f => f t) ((s.puts rows).foldl (fun t f => f t) t) =
    (s.puts rows).foldl (fun t f => f t) t := by
  rw [foldl_puts, foldl_puts, s.rows_set, s.set_set, Keyed.putAll_putAll]

/-- No key is held twice. -/
theorem admitted_puts {t : Tables} (ht : t.Distinct) : Admitted (s.puts rows) t := by
  refine admitted_of_forall (fun f hf t h => ?_) ht
  obtain ⟨row, -, rfl⟩ := List.mem_map.mp hf
  exact s.distinct h (Keyed.nodup_put row (s.nodup h))

theorem puts_advance {f : Tables → Tables} (hf : f ∈ s.puts rows) (t : Tables) (name : String) (height : Nat) :
    f (t.advance name height) = (f t).advance name height := by
  obtain ⟨row, -, rfl⟩ := List.mem_map.mp hf
  simp only [s.rows_advance, s.set_advance]

end Table

namespace Batch

/-! ## Statements -/

/-- Whether the rows of a batch take the place of what is stored. Intervals and rewards are added to it. -/
def Overwrites : Batch → Prop
  | intervals _ | rewards _ => False
  | _ => True

/-- The statements of a batch that overwrites, in their order. -/
def statements : Batch → List (Tables → Tables)
  | consensusBlocks rows => Table.consensusBlocks.puts rows
  | executionBlocks rows => Table.executionBlocks.puts (rows.map fun row => { row with withdrawals := [] })
  | consensusEvents rows => Table.consensusEvents.puts rows
  | executionEvents rows => Table.executionEvents.puts rows
  | totals rows => Table.totals.puts rows
  | history rows => rows.flatMap fun row => [
      fun t : Tables => { t with history := clearSecond row t.history },
      fun t : Tables => { t with history := Keyed.put HistoryPoint.block row t.history }]
  | votes rows keepFrom => rows.map (fun row (t : Tables) => { t with votes := Keyed.keep voteKey row t.votes }) ++
      [fun t : Tables => { t with votes := pruneVotes keepFrom t.votes }]
  | intervals _ | rewards _ => []

/-- The tables after the statements of a batch. -/
def written (b : Batch) (t : Tables) : Tables := b.statements.foldl (fun t f => f t) t

/-- **A batch that overwrites is committed statement by statement.** -/
theorem commit_eq (hb : b.Overwrites) (name : String) (height : Nat) :
    b.commit name height = Commit.batch name height (each write b.statements) := by
  cases b with
  | consensusBlocks rows | consensusEvents rows | executionEvents rows | totals rows =>
    exact congrArg (Commit.batch name height) (each_map write _ rows)
  | executionBlocks rows =>
    refine congrArg (Commit.batch name height) ?_
    rw [statements, Table.puts, List.map_map]
    exact each_map write _ rows
  | history rows =>
    refine congrArg (Commit.batch name height) ?_
    rw [statements, ← each_flatMap]
    congr 1
    funext row
    rw [each, each_singleton]
  | votes rows keepFrom =>
    refine congrArg (Commit.batch name height) ?_
    rw [statements, each_append, ← each_map, each_singleton]
  | intervals rows | rewards rows => exact hb.elim

/-- A commit of a batch that overwrites leaves its rows, or everything as it was. -/
theorem commit_ends (hb : b.Overwrites) (name : String) (height : Nat) :
    Ends (Holds t) (b.commit name height) (fun _ => Holds ((b.written t).advance name height)) (Holds t) := by
  rw [commit_eq hb]
  exact batch_ends_of (each_write_ends (fun f => f) b.statements)

/-- A statement and a checkpoint that moves do not touch each other. -/
theorem statement_advance {f : Tables → Tables} (hf : f ∈ b.statements) (t : Tables) (name : String) (height : Nat) :
    f (t.advance name height) = (f t).advance name height := by
  cases b with
  | consensusBlocks | executionBlocks | consensusEvents | executionEvents | totals =>
    exact Table.puts_advance _ _ hf t name height
  | history =>
    obtain ⟨row, -, hf⟩ := List.mem_flatMap.mp hf
    simp only [List.mem_cons, List.not_mem_nil, or_false] at hf
    rcases hf with rfl | rfl <;> rfl
  | votes =>
    rcases List.mem_append.mp hf with hf | hf
    · obtain ⟨row, -, rfl⟩ := List.mem_map.mp hf
      rfl
    · rw [List.mem_singleton.mp hf]
      rfl
  | intervals | rewards => cases hf

theorem written_advance (b : Batch) (name : String) (height : Nat) (t : Tables) :
    b.written (t.advance name height) = (b.written t).advance name height := by
  have hone : ∀ f ∈ b.statements, ∀ t, f (t.advance name height) = (f t).advance name height :=
    fun f hf t => statement_advance hf t name height
  unfold written
  generalize b.statements = fs at hone
  induction fs generalizing t with
  | nil => rfl
  | cons f fs ih =>
    rw [List.foldl_cons, List.foldl_cons, hone f List.mem_cons_self]
    exact ih (f t) fun g hg => hone g (List.mem_cons_of_mem _ hg)

/-! ## Keys -/

/-- A row of the history may be written because its second was cleared before. -/
theorem admitted_history (rows : List HistoryPoint) (ht : t.Distinct) : Admitted (history rows).statements t := by
  induction rows generalizing t with
  | nil => trivial
  | cons row rows ih =>
    have hclear : ({ t with history := clearSecond row t.history } : Tables).Distinct :=
      { ht with
        historyBlocks := ht.historyBlocks.sublist (List.filter_sublist.map _)
        historyTimes := ht.historyTimes.sublist (List.filter_sublist.map _) }
    have hput : ({ t with history := settleRow row t.history } : Tables).Distinct :=
      { ht with
        historyBlocks := nodup_settleRow_block row ht.historyBlocks
        historyTimes := nodup_settleRow_time row ht.historyBlocks ht.historyTimes }
    exact ⟨hclear, hput, ih hput⟩

/-- **The statements of a batch leave every key held once**, each where the ones before it end. -/
theorem admitted (b : Batch) (ht : t.Distinct) : Admitted b.statements t := by
  cases b with
  | consensusBlocks | executionBlocks | consensusEvents | executionEvents | totals =>
    exact Table.admitted_puts _ _ ht
  | history rows => exact admitted_history rows ht
  | votes rows keepFrom =>
    have hrows : Admitted (rows.map fun row (t : Tables) => { t with votes := Keyed.keep voteKey row t.votes }) t := by
      refine admitted_of_forall (fun f hf t h => ?_) ht
      obtain ⟨row, -, rfl⟩ := List.mem_map.mp hf
      exact { h with votes := Keyed.nodup_keep _ h.votes }
    have hrest := hrows.distinct ht
    refine hrows.append ⟨?_, trivial⟩
    exact { hrest with votes := hrest.votes.sublist (List.filter_sublist.map _) }
  | intervals | rewards => trivial

/-! ## Rows that are written again -/

theorem written_history (rows : List HistoryPoint) (t : Tables) :
    (history rows).written t = { t with history := settle rows t.history } := by
  rw [written, statements, List.foldl_flatMap]
  exact foldl_into settleRow (fun t => t.history) (fun rows t => { t with history := rows }) (fun _ _ => rfl)
    (fun _ _ _ => rfl) (fun _ => rfl) rows t

theorem written_votes (rows : List Vote) (keepFrom : Nat) (t : Tables) :
    (votes rows keepFrom).written t = { t with votes := pruneVotes keepFrom (keepVotes rows t.votes) } := by
  have hkept := foldl_into (Keyed.keep voteKey) (fun t => t.votes) (fun rows t => { t with votes := rows })
    (fun _ _ => rfl) (fun _ _ _ => rfl) (fun _ => rfl) rows t
  rw [written, statements, List.foldl_append, List.foldl_map, hkept]
  rfl

/-- **A batch that is written again** leaves the rows that it left. -/
theorem written_again (b : Batch) (ht : t.Distinct) : SameRows (b.written (b.written t)) (b.written t) := by
  cases b with
  | consensusBlocks | executionBlocks | consensusEvents | executionEvents | totals =>
    unfold written
    rw [statements, Table.foldl_puts_again]
    exact .refl _
  | history rows =>
    rw [written_history, written_history]
    exact ⟨settle_settle ht.historyBlocks ht.historyTimes, rfl⟩
  | votes rows keepFrom =>
    rw [written_votes, written_votes, prune_keepVotes_again]
    exact .refl _
  | intervals | rewards => exact .refl _

/-! ## Commits -/

/-- **A batch that overwrites is committed** unless a statement is refused, where its checkpoint was set up. -/
theorem commit_ok_iff (hb : b.Overwrites) (hc : ∃ c, d.tables.checkpoint? name = some c) (height : Nat) :
    (b.commit name height d).1 = .ok () ↔ Quiet d (b.commit name height d).2 := by
  have hlegible : b.Legible d.tables := by
    cases b with
    | rewards rows => exact hb.elim
    | _ => trivial
  obtain ⟨c, hc⟩ := hc
  rcases commit_cases b name height d with ⟨hq, h⟩ | ⟨hq, ⟨hl, -⟩ | ⟨-, ⟨hnone, -⟩ | ⟨-, h, -⟩⟩⟩
  · simp [h, hq]
  · exact absurd hlegible hl
  · rw [hnone] at hc
    cases hc
  · simp [h, hq]

/-- A commit takes no checkpoint away. -/
theorem commit_checkpoint (b : Batch) (hc : ∃ c, d.tables.checkpoint? name = some c) (height : Nat) :
    ∃ c, (b.commit name height d).2.tables.checkpoint? name = some c := by
  rcases hr : (b.commit name height d).1 with e | ⟨⟩
  · rw [commit_error hr]
    exact hc
  · rcases commit_cases b name height d with ⟨-, h⟩ | ⟨-, ⟨-, _, _, h⟩ | ⟨-, ⟨-, h⟩ | ⟨-, -, hcheckpoints, -⟩⟩⟩
    · rw [h] at hr
      cases hr
    · rw [h] at hr
      cases hr
    · rw [h] at hr
      cases hr
    · rw [Tables.checkpoint?, hcheckpoints]
      exact checkpoint?_advance_isSome height hc

/-- **What a commit leaves**: the keys are held once. -/
theorem commit_distinct (hb : b.Overwrites) (hd : d.tables.Distinct) (name : String) (height : Nat) :
    (b.commit name height d).2.tables.Distinct := by
  have hends := commit_ends hb name height d rfl
  rcases hr : b.commit name height d with ⟨e | ⟨⟩, d'⟩ <;> rw [hr] at hends
  · rw [show d'.tables = d.tables from hends]
    exact hd
  · rw [show d'.tables = (b.written d.tables).advance name height from hends]
    exact ((b.admitted hd).distinct hd).advance name height

/-- **A database that enforces the keys** refuses no statement of a commit for a key. -/
theorem commit_enforced (hb : b.Overwrites) (hd : d.tables.Distinct) (name : String) (height : Nat) :
    Commit.batch name height (each enforced b.statements) d = b.commit name height d := by
  rw [commit_eq hb]
  exact batch_enforced (b.admitted hd) name height

end Batch

/-- **Committing a batch once more changes nothing.** Of blocks, events, points, rows of the history or votes, with any
keys, that are committed twice in a row for a checkpoint that was set up: each commit succeeds unless a statement is
refused. Once the first one has succeeded, the second one leaves every table and every checkpoint as they are, whatever
comes of it. No statement of either is ever refused for a key, and every key stays held once, blocks and seconds of the
history among them. -/
theorem commit_repeated (hb : b.Overwrites) (hd : d.tables.Distinct) (hc : ∃ c, d.tables.checkpoint? name = some c)
    (h₁ : b.commit name height d = (r₁, d₁)) (h₂ : b.commit name height d₁ = (r₂, d₂)) :
    (r₁ = .ok () ↔ Quiet d d₁) ∧ (r₂ = .ok () ↔ Quiet d₁ d₂) ∧
    (r₁ = .ok () → SameRows d₂.tables d₁.tables) ∧
    (Commit.batch name height (each enforced b.statements) d = (r₁, d₁) ∧
      Commit.batch name height (each enforced b.statements) d₁ = (r₂, d₂)) ∧
    d₁.tables.Distinct ∧ d₂.tables.Distinct := by
  have hd₁ : d₁.tables.Distinct := by
    have := Batch.commit_distinct hb hd name height
    rwa [h₁] at this
  have hc₁ : ∃ c, d₁.tables.checkpoint? name = some c := by
    have := b.commit_checkpoint hc height
    rwa [h₁] at this
  have hok := Batch.commit_ok_iff hb hc height
  have hok₁ := Batch.commit_ok_iff hb hc₁ height
  have hd₂ := Batch.commit_distinct hb hd₁ name height
  rw [h₁] at hok
  rw [h₂] at hok₁ hd₂
  refine ⟨hok, hok₁, ?_, ⟨?_, ?_⟩, hd₁, hd₂⟩
  · rintro rfl
    have htables : d₁.tables = (b.written d.tables).advance name height := by
      have hends := Batch.commit_ends hb name height d rfl
      rwa [h₁] at hends
    have hends := Batch.commit_ends hb name height d₁ rfl
    rw [h₂] at hends
    rcases r₂ with e | ⟨⟩
    · rw [show d₂.tables = d₁.tables from hends]
      exact .refl _
    · rw [show d₂.tables = (b.written d₁.tables).advance name height from hends, htables, Batch.written_advance,
        advance_advance]
      exact (b.written_again hd).advance name height
  · rw [Batch.commit_enforced hb hd, h₁]
  · rw [Batch.commit_enforced hb hd₁, h₂]

/-! ### Rows that evict each other -/

/-- A history of two rows. -/
def sampleAnnals : Database where
  tables := { checkpoints := [⟨"history", 2⟩], history := [⟨1, 10, 5⟩, ⟨2, 20, 6⟩] }

/-- Block 3 takes over the second of block 2, block 2 moves to a second that block 4 takes over, and block 1 takes over
the second of block 3. -/
def sampleEvictions : Batch := .history [⟨3, 20, 7⟩, ⟨2, 30, 8⟩, ⟨4, 30, 9⟩, ⟨1, 20, 4⟩]

/-- The database after them, eleven statements later. -/
def sampleSettled : Database where
  tables := { checkpoints := [⟨"history", 4⟩], history := [⟨1, 20, 4⟩, ⟨4, 30, 9⟩] }
  statements := 11

/-- **Rows that evict each other** leave the same two rows both times, and the second time in the other order. -/
theorem sampleEvictions_repeated :
    sampleEvictions.commit "history" 4 sampleAnnals = (.ok (), sampleSettled) ∧
    SameRows (sampleEvictions.commit "history" 4 sampleSettled).2.tables sampleSettled.tables ∧
    (sampleEvictions.commit "history" 4 sampleSettled).2.tables.history = [⟨4, 30, 9⟩, ⟨1, 20, 4⟩] := by
  have hover : sampleEvictions.Overwrites := trivial
  have hdistinct : sampleAnnals.tables.Distinct := by decide
  have hthere : ∃ c, sampleAnnals.tables.checkpoint? "history" = some c := ⟨⟨"history", 2⟩, rfl⟩
  have hfirst : sampleEvictions.commit "history" 4 sampleAnnals = (.ok (), sampleSettled) := by cbv
  have hsame := (commit_repeated hover hdistinct hthere hfirst rfl).2.2.1 rfl
  exact ⟨hfirst, hsame, by cbv⟩

end StakeTrail.Store
