import StakeTrail.Indexing.Execution
import StakeTrail.Proofs.Contract.Rows
import StakeTrail.Proofs.Indexing.Runs
import StakeTrail.Proofs.Store.Raw

/-!
# No gap and no duplicate in the raw tables

Blocks and events of both chains are stored as they are read, height by height. `Chains` fixes what the chains hold, and
feeds that `Tell` it may fail at any call. The loops of the four indexers take turns in any order, each turn with feeds,
a schedule and a cancellation of its own, and may be started over at any time (`Reaches`).

* A batch fills its table up to its end and leaves the other three alone (`Whole.batch`).
* **The main statement** (`raw_tables_whole`): in any state of any run, the four tables hold the rows of the heights that
  their checkpoints cover, each once, and no others. So a height that cannot be read is never covered.
-/

namespace StakeTrail.Indexing.Gapless

open StakeTrail.Action Store Database Session Staking

variable {γ : Type} {t u : Tables} {l : Stake.Ledger} {first last : Nat}

/-! ## The chains -/

/-- **What two chains hold** at each height. The places of events are half words, and the logs of all heights differ in
transaction or index. -/
structure Chains where
  consensusBlock : Nat → ConsensusBlock
  events : Nat → List EventRecord
  executionBlock : Nat → ExecutionBlock
  logs : Nat → List LogRecord
  consensusBlock_height : ∀ h, (consensusBlock h).height = h
  executionBlock_height : ∀ h, (executionBlock h).height = h
  events_few : ∀ h, (events h).length ≤ Word.topHalf
  logs_block : ∀ h, ∀ log ∈ logs h, log.block = h
  logs_place : ∀ n, (((List.range n).flatMap logs).map Contract.placeOf).Nodup

/-- Whatever the feeds answer is what the chains hold; heads are half words. -/
structure Tells (chains : Chains) (feed : ConsensusFeed) (feed' : ExecutionFeed) : Prop where
  consensusHead : ∀ h, feed.head = .ok h → h < 0x80000000
  consensusBlock : ∀ h b, feed.block h = .ok b → b = chains.consensusBlock h
  events : ∀ h l, feed.events h = .ok l → l = chains.events h
  executionHead : ∀ h, feed'.head = .ok h → h < 0x80000000
  executionBlock : ∀ h b, feed'.block h = .ok b → b = chains.executionBlock h
  logs : ∀ first last l, feed'.logs first last = .ok l →
    l.Perm ((List.range' first (last + 1 - first)).flatMap chains.logs)

/-- An execution block as it is stored. -/
def header (block : ExecutionBlock) : ExecutionBlock := { block with withdrawals := [] }

namespace Chains

variable (chains : Chains)

/-- The consensus chain; the times of its blocks do not matter here. -/
def consensus : ConsensusChain := ⟨chains.events, fun _ => 0, fun _ => le_rfl, fun _ => by decide⟩

theorem consensus_numbered : chains.consensus.Numbered := chains.events_few

/-- The rows of the logs of a height. -/
def logRows (h : Nat) : List ExecutionEvent := (chains.logs h).filterMap Contract.row?

theorem logs_unique {h k : Nat} {a b : LogRecord} (ha : a ∈ chains.logs h) (hb : b ∈ chains.logs k)
    (hplace : Contract.placeOf a = Contract.placeOf b) : a = b := by
  have hmem : ∀ {j c}, c ∈ chains.logs j → j < max h k + 1 → c ∈ (List.range (max h k + 1)).flatMap chains.logs :=
    fun hc hj => List.mem_flatMap.mpr ⟨_, List.mem_range.mpr hj, hc⟩
  exact List.inj_on_of_nodup_map (chains.logs_place (max h k + 1)) (hmem ha (by omega)) (hmem hb (by omega)) hplace

end Chains

/-! ## The four tables -/

/-- The tables that are stored as they are read. -/
inductive Lane
  | consensusBlocks
  | consensusEvents
  | executionBlocks
  | executionEvents
  deriving DecidableEq

namespace Lane

/-- The name of the indexer. -/
def name : Lane → String
  | consensusBlocks => Consensus.blocksName
  | consensusEvents => Consensus.eventsName
  | executionBlocks => Execution.blocksName
  | executionEvents => Execution.eventsName

/-- The rows. -/
def Row : Lane → Type
  | consensusBlocks => ConsensusBlock
  | consensusEvents => ConsensusEvent
  | executionBlocks => ExecutionBlock
  | executionEvents => ExecutionEvent

/-- The keys of the rows. -/
def Key : Lane → Type
  | consensusBlocks | executionBlocks => Nat
  | consensusEvents => Nat × Nat
  | executionEvents => String × Nat

instance : (i : Lane) → DecidableEq i.Key
  | consensusBlocks | executionBlocks => instDecidableEqNat
  | consensusEvents => instDecidableEqProd
  | executionEvents => instDecidableEqProd

/-- The key of a row. -/
def key : (i : Lane) → i.Row → i.Key
  | consensusBlocks => ConsensusBlock.height
  | consensusEvents => consensusEventKey
  | executionBlocks => ExecutionBlock.height
  | executionEvents => executionEventKey

/-- The rows in the tables. -/
def rows : (i : Lane) → Tables → List i.Row
  | consensusBlocks, t => t.consensusBlocks
  | consensusEvents, t => t.consensusEvents
  | executionBlocks, t => t.executionBlocks
  | executionEvents, t => t.executionEvents

/-- Replaces the rows. -/
def put : (i : Lane) → List i.Row → Tables → Tables
  | consensusBlocks, rows, t => { t with consensusBlocks := rows }
  | consensusEvents, rows, t => { t with consensusEvents := rows }
  | executionBlocks, rows, t => { t with executionBlocks := rows }
  | executionEvents, rows, t => { t with executionEvents := rows }

/-- Commits rows over those with their key. -/
def commit (i : Lane) (batch : List i.Row) (height : Nat) : Action Database Unit :=
  Commit.batch i.name height (each (fun row => write fun t => i.put (Keyed.put i.key row (i.rows t)) t) batch)

theorem name_injective {i j : Lane} (h : i.name = j.name) : i = j := by
  revert h
  cases i <;> cases j <;> decide

/-- Writing one table leaves the others. -/
theorem rows_put_of_ne {i j : Lane} (h : j ≠ i) (rows : List i.Row) (t : Tables) : j.rows (i.put rows t) = j.rows t := by
  cases i <;> cases j <;> first | rfl | exact absurd rfl h

theorem rows_put (i : Lane) (rows : List i.Row) (t : Tables) : i.rows (i.put rows t) = rows := by
  cases i <;> rfl

/-- Moving checkpoints leaves the rows. -/
theorem rows_checkpoints (i : Lane) (checkpoints : List Checkpoint) (t : Tables) :
    i.rows { t with checkpoints } = i.rows t := by
  cases i <;> rfl

theorem checkpoints_put (i : Lane) (rows : List i.Row) (t : Tables) : (i.put rows t).checkpoints = t.checkpoints := by
  cases i <;> rfl

/-- **What a commit does**: its rows are written, and the checkpoint was there and moves. -/
theorem commit_ends (i : Lane) (batch : List i.Row) (height : Nat) :
    Ends (Holds t) (i.commit batch height)
      (fun _ d => (∃ c, t.checkpoint? i.name = some c) ∧
        Holds (Tables.advance i.name height (i.put (Keyed.putAll i.key batch (i.rows t)) t)) d) (Holds t) := by
  have hsame : (i.put (Keyed.putAll i.key batch (i.rows t)) t).checkpoint? i.name = t.checkpoint? i.name := by
    rw [Tables.checkpoint?, Tables.checkpoint?, checkpoints_put]
  have hrows := each_put_ends (t := t) i.key i.rows i.put i.rows_put (fun _ _ _ => by cases i <;> rfl)
    (fun _ => by cases i <;> rfl) batch
  have h : Ends (Holds t) (i.commit batch height) _ _ := batch_found_ends_of hrows
  rwa [hsame] at h

end Lane

/-! ### What they are to hold -/

namespace Chains

variable (chains : Chains)

/-- The consensus blocks. -/
def consensusBlocks : Raw ConsensusBlock Nat where
  key := ConsensusBlock.height
  readable _ := True
  rows h := [chains.consensusBlock h]
  nodup h := List.nodup_singleton _
  apart ha hb hkey := by
    rw [List.mem_singleton.mp ha, List.mem_singleton.mp hb, chains.consensusBlock_height,
      chains.consensusBlock_height] at hkey
    exact hkey

/-- The execution blocks. -/
def executionBlocks : Raw ExecutionBlock Nat where
  key := ExecutionBlock.height
  readable _ := True
  rows h := [header (chains.executionBlock h)]
  nodup h := List.nodup_singleton _
  apart ha hb hkey := by
    rw [List.mem_singleton.mp ha, List.mem_singleton.mp hb] at hkey
    rwa [header, header, chains.executionBlock_height, chains.executionBlock_height] at hkey

/-- The consensus events. -/
def consensusEvents : Raw ConsensusEvent (Nat × Nat) where
  key := consensusEventKey
  readable := chains.consensus.Classified
  rows := chains.consensus.rows
  nodup h := by
    refine List.pairwise_map.mpr ((ConsensusChain.rows_ascend chains.consensus_numbered h).imp fun hlt heq => ?_)
    exact Nat.ne_of_lt hlt (Prod.mk.inj heq).2
  apart {h k a b} ha hb hkey := by
    rw [← ConsensusChain.rows_block ha, ← ConsensusChain.rows_block hb]
    exact (Prod.mk.inj hkey).1

/-- The execution events. -/
def executionEvents : Raw ExecutionEvent (String × Nat) where
  key := executionEventKey
  readable h := ∀ log ∈ chains.logs h, Contract.Decodes log
  rows := chains.logRows
  nodup h := by
    refine Contract.nodup_rows ?_
    have hall := chains.logs_place (h + 1)
    rw [List.range_succ, List.flatMap_append, List.map_append] at hall
    simpa using (List.nodup_append.mp hall).2.1
  apart {h k a b} ha hb hkey := by
    obtain ⟨log, hlog, hrow⟩ := List.mem_filterMap.mp ha
    obtain ⟨log', hlog', hrow'⟩ := List.mem_filterMap.mp hb
    have hplace := (Contract.rowOfLog_place (Contract.row?_eq_some.mp hrow)).1
    have hplace' := (Contract.rowOfLog_place (Contract.row?_eq_some.mp hrow')).1
    have heq := chains.logs_unique hlog hlog' (hplace.symm.trans (hkey.trans hplace'))
    rw [← chains.logs_block h log hlog, ← chains.logs_block k log' hlog', heq]

/-- What a table is to hold. -/
def raw : (i : Lane) → Raw i.Row i.Key
  | .consensusBlocks => chains.consensusBlocks
  | .consensusEvents => chains.consensusEvents
  | .executionBlocks => chains.executionBlocks
  | .executionEvents => chains.executionEvents

theorem raw_key (i : Lane) : (chains.raw i).key = i.key := by
  cases i <;> rfl

end Chains

/-! ## What is read off the feeds -/

variable {chains : Chains} {feed : ConsensusFeed} {feed' : ExecutionFeed}

/-- The rows of blocks that were gathered, as they are stored. -/
theorem reads_gathered {α : Type} (raw : Raw α Nat) {fetch : Nat → Except Fault α} {blocks : List α} {f : α → α}
    {g : Nat → α} (hreadable : ∀ h, raw.readable h) (hrows : ∀ h, raw.rows h = [g h])
    (hfetch : ∀ h a, fetch h = .ok a → f a = g h) (h : Feed.gather first last fetch = .ok blocks) :
    raw.Reads first last (blocks.map f) where
  readable h _ _ := hreadable h
  mem r := by
    rw [Feed.gather_map hfetch h, List.mem_map]
    constructor
    · rintro ⟨h, hh, rfl⟩
      obtain ⟨h₁, h₂⟩ := List.mem_range'_1.mp hh
      exact ⟨h, h₁, by omega, by rw [hrows]; exact List.mem_singleton_self _⟩
    · rintro ⟨h, h₁, h₂, hr⟩
      rw [hrows] at hr
      exact ⟨h, List.mem_range'_1.mpr ⟨h₁, by omega⟩, (List.mem_singleton.mp hr).symm⟩

/-- The rows of the events of a range. -/
theorem reads_events (hf : ∀ h l, feed.events h = .ok l → l = chains.events h) {lists : List (List EventRecord)}
    (hlists : Feed.gather first last feed.events = .ok lists) {rows : List ConsensusEvent}
    (hrows : Consensus.rowsOfHeights first lists = .ok rows) : chains.consensusEvents.Reads first last rows := by
  have heq : lists = (List.range' first (last + 1 - first)).map chains.consensus.events := by
    simpa using Feed.gather_map (f := fun a => a) (g := chains.consensus.events) hf hlists
  subst heq
  obtain ⟨hall, hmem⟩ := Consensus.mem_rowsOfHeights hrows
  refine ⟨fun h h₁ h₂ => hall h h₁ (by omega), fun r => ?_⟩
  rw [hmem]
  constructor
  · rintro ⟨h, h₁, h₂, hr⟩
    exact ⟨h, h₁, by omega, hr⟩
  · rintro ⟨h, h₁, h₂, hr⟩
    exact ⟨h, h₁, by omega, hr⟩

/-- The rows of the logs of a range. -/
theorem reads_logs {logs : List LogRecord}
    (hlogs : logs.Perm ((List.range' first (last + 1 - first)).flatMap chains.logs)) {rows : List ExecutionEvent}
    (hrows : Contract.rowsOfLogs logs = .ok rows) : chains.executionEvents.Reads first last rows := by
  obtain ⟨hall, hmem⟩ := Contract.mem_rowsOfLogs hrows
  have hlog : ∀ log, log ∈ logs ↔ ∃ h, first ≤ h ∧ h ≤ last ∧ log ∈ chains.logs h := by
    intro log
    rw [hlogs.mem_iff, List.mem_flatMap]
    constructor
    · rintro ⟨h, hh, hm⟩
      obtain ⟨h₁, h₂⟩ := List.mem_range'_1.mp hh
      exact ⟨h, h₁, by omega, hm⟩
    · rintro ⟨h, h₁, h₂, hm⟩
      exact ⟨h, List.mem_range'_1.mpr ⟨h₁, by omega⟩, hm⟩
  refine ⟨fun h h₁ h₂ log hm => hall log ((hlog log).mpr ⟨h, h₁, h₂, hm⟩), fun r => ?_⟩
  rw [hmem]
  constructor
  · rintro ⟨log, hm, hr⟩
    obtain ⟨h, h₁, h₂, hm⟩ := (hlog log).mp hm
    exact ⟨h, h₁, h₂, List.mem_filterMap.mpr ⟨log, hm, hr⟩⟩
  · rintro ⟨h, h₁, h₂, hr⟩
    obtain ⟨log, hm, hr⟩ := List.mem_filterMap.mp hr
    exact ⟨log, (hlog log).mpr ⟨h, h₁, h₂, hm⟩, hr⟩

/-! ## What the loops rely on -/

/-- **The four tables are whole**: each holds the rows of the heights that its checkpoint covers. -/
structure Whole (chains : Chains) (t : Tables) : Prop where
  half : ∀ i : Lane, t.reached i.name < 0x80000000
  stored : ∀ i : Lane, (chains.raw i).Stored (t.reached i.name) (i.rows t)

/-- No checkpoint moves back. -/
def Later (t u : Tables) : Prop := ∀ i : Lane, t.reached i.name ≤ u.reached i.name

/-- Which ranges may be worked off: those that leave no gap. -/
structure Fits (name : String) (t : Tables) (first target : Nat) : Prop where
  half : target < 0x80000000
  pos : 1 ≤ first
  next : first ≤ t.reached name + 1

/-- What the four loops rely on. -/
def pact (chains : Chains) : Pact (Session γ) where
  inv s := Whole chains s.database.tables
  later s s' := Later s.database.tables s'.database.tables
  fits name s first target := ∀ i : Lane, i.name = name → Fits name s.database.tables first target
  refl _ _ := le_rfl
  trans h h' i := (h i).trans (h' i)
  lasting hlater h i hi :=
    have hfits := h i hi
    ⟨hfits.half, hfits.pos, hfits.next.trans (Nat.succ_le_succ (hi ▸ hlater i))⟩

/-- **What a commit does to whole tables**: they stay whole, and its checkpoint moves to the greater height. -/
theorem commit_whole (i : Lane) (batch : List i.Row) (hw : Whole chains t) (hfits : Fits i.name t first last)
    (hreads : (chains.raw i).Reads first last batch) :
    Ends (At t l) (onStore (i.commit batch last))
      (fun _ (s : Session γ) => Whole chains s.database.tables ∧ Later t s.database.tables ∧
        last ≤ s.database.tables.reached i.name) (At t l) := by
  refine (onStore_ends (i.commit_ends batch last)).post ?_
  rintro _ s ⟨⟨hc, ht⟩, -⟩
  have hhalf := hw.half i
  have hlast := hfits.half
  rw [show s.database.tables = _ from ht]
  have hown : (Tables.advance i.name last (i.put (Keyed.putAll i.key batch (i.rows t)) t)).reached i.name =
      max (t.reached i.name) last :=
    reached_advance (i.checkpoints_put _ t) hc (by omega) (by omega)
  have hothers : ∀ j : Lane, j ≠ i →
      (Tables.advance i.name last (i.put (Keyed.putAll i.key batch (i.rows t)) t)).reached j.name =
        t.reached j.name := by
    intro j hj
    rw [reached_advance_of_ne fun h => hj (Lane.name_injective h), Tables.reached, Tables.reached, Tables.checkpoint?,
      Tables.checkpoint?, i.checkpoints_put]
  refine ⟨⟨fun j => ?_, fun j => ?_⟩, fun j => ?_, by rw [hown]; exact le_max_right _ _⟩
  · by_cases hj : j = i
    · subst hj
      rw [hown]
      omega
    · rw [hothers j hj]
      exact hw.half j
  · by_cases hj : j = i
    · subst hj
      rw [hown, Tables.advance, j.rows_checkpoints, j.rows_put, ← chains.raw_key j]
      exact (hw.stored j).putAll hreads hfits.pos hfits.next
    · rw [hothers j hj, Tables.advance, j.rows_checkpoints, Lane.rows_put_of_ne hj]
      exact hw.stored j
  · by_cases hj : j = i
    · subst hj
      rw [hown]
      exact le_max_left _ _
    · rw [hothers j hj]

/-! ## The indexers -/

/-- The indexer of a table. -/
def Lane.indexer (feed : ConsensusFeed) (feed' : ExecutionFeed) : Lane → Indexer (Session γ)
  | .consensusBlocks => Consensus.blocks feed
  | .consensusEvents => Consensus.events feed
  | .executionBlocks => Execution.blocks feed'
  | .executionEvents => Execution.events feed'

theorem Lane.indexer_name (i : Lane) : (i.indexer (γ := γ) feed feed').name = i.name := by
  cases i <;> rfl

/-- **A piece of any indexer** reads its rows and commits them. -/
theorem cover_whole (i : Lane) (hf : Tells chains feed feed') (hw : Whole chains t) (hfits : Fits i.name t first last) :
    Ends (At t l) ((i.indexer feed feed').cover first last)
      (fun _ (s : Session γ) => Whole chains s.database.tables ∧ Later t s.database.tables ∧
        last ≤ s.database.tables.reached i.name) (At t l) := by
  cases i with
  | consensusBlocks =>
    refine Ends.ofExcept.bind fun rows => Ends.assuming fun hrows => ?_
    refine commit_whole .consensusBlocks rows hw hfits ?_
    have hreads := reads_gathered chains.consensusBlocks (f := fun b => b) (fun _ => trivial) (fun _ => rfl)
      hf.consensusBlock hrows
    rwa [List.map_id'] at hreads
  | consensusEvents =>
    refine Ends.ofExcept.bind fun lists => Ends.assuming fun hlists => ?_
    refine Ends.ofExcept.bind fun rows => Ends.assuming fun hrows => ?_
    exact commit_whole .consensusEvents rows hw hfits (reads_events hf.events hlists hrows)
  | executionBlocks =>
    refine Ends.ofExcept.bind fun rows => Ends.assuming fun hrows => ?_
    -- the withdrawals are dropped row by row
    have hcommit : Commit.executionBlocks Execution.blocksName rows last =
        Lane.executionBlocks.commit (rows.map header) last :=
      congrArg (Commit.batch Execution.blocksName last) (each_map (fun row => write fun t =>
        { t with executionBlocks := Keyed.put ExecutionBlock.height row t.executionBlocks }) header rows)
    rw [hcommit]
    refine commit_whole .executionBlocks (rows.map header) hw hfits ?_
    exact reads_gathered chains.executionBlocks (fun _ => trivial) (fun _ => rfl)
      (fun h b hb => by rw [hf.executionBlock h b hb]) hrows
  | executionEvents =>
    refine Ends.ofExcept.bind fun logs => Ends.assuming fun hlogs => ?_
    refine Ends.ofExcept.bind fun rows => Ends.assuming fun hrows => ?_
    exact commit_whole .executionEvents rows hw hfits (reads_logs (hf.logs first last logs hlogs) hrows)

theorem target_half (i : Lane) (hf : Tells chains feed feed') :
    Ends (At t l) (i.indexer (γ := γ) feed feed').target (fun h s => h < 0x80000000 ∧ At t l s) (At t l) := by
  cases i with
  | consensusBlocks | consensusEvents => exact Ends.ofExcept.post fun h s hh => ⟨hf.consensusHead h hh.1, hh.2⟩
  | executionBlocks | executionEvents => exact Ends.ofExcept.post fun h s hh => ⟨hf.executionHead h hh.1, hh.2⟩

/-- Whatever changes no table. -/
theorem Whole.keep {s s' : Session γ} (hw : Whole chains s.database.tables) (h : At s.database.tables s.ledger s') :
    (pact chains).inv s' ∧ (pact chains).later s s' := by
  obtain ⟨ht, -⟩ := h
  refine ⟨?_, fun i => ?_⟩
  · change Whole chains s'.database.tables
    rwa [ht]
  · rw [ht]

/-- **Every indexer keeps the pact.** -/
theorem indexer_kept (i : Lane) (hf : Tells chains feed feed') (schedule : Schedule) (cancelled : Session γ → Bool) :
    (pact chains).Kept (loopUntil schedule cancelled) (i.indexer feed feed') where
  look s hw := by
    have hlook : Ends (At s.database.tables s.ledger) ((loopUntil schedule cancelled).look (i.indexer feed feed')) _ _ :=
      look_ends (target_half i hf)
    refine hlook.mono (fun s' h => h ▸ ⟨rfl, rfl⟩) (fun found s' ⟨⟨hc, hh⟩, hat⟩ => ⟨fun j hj => ?_, hw.keep hat⟩)
      fun _ => hw.keep
    rw [i.indexer_name] at hj hc ⊢
    rw [hat.1]
    exact ⟨hh, Nat.succ_pos _, (congrArg Nat.succ (hc (hw.half i))).le⟩
  cover s first last target hw hfits _ hle := by
    have hfits' := hfits i i.indexer_name.symm
    rw [i.indexer_name] at hfits'
    have hpiece : Fits i.name s.database.tables first last := ⟨hle.trans_lt hfits'.half, hfits'.pos, hfits'.next⟩
    refine (cover_whole i hf hw hpiece).mono (fun s' h => h ▸ ⟨rfl, rfl⟩) ?_ fun _ => hw.keep
    rintro _ s' ⟨hw', hlater, hreached⟩
    refine ⟨fun j _ => ⟨hfits'.half, Nat.succ_pos last, ?_⟩, hw', hlater⟩
    rw [i.indexer_name]
    exact Nat.succ_le_succ hreached
  count c s hw := ⟨hw, fun _ => le_rfl⟩

/-! ## Runs -/

/-- The four indexers. -/
def lanes : List Lane := [.consensusBlocks, .consensusEvents, .executionBlocks, .executionEvents]

/-- Their loops. -/
def fleet (feed : ConsensusFeed) (feed' : ExecutionFeed) (schedule : Schedule) (cancelled : Session γ → Bool) :
    Fleet (Session γ) :=
  ⟨loopUntil schedule cancelled, lanes.map (Lane.indexer feed feed')⟩

/-- The fleets whose nodes tell what the chains hold. -/
def Honest (chains : Chains) (f : Fleet (Session γ)) : Prop :=
  ∃ feed feed' schedule cancelled, Tells chains feed feed' ∧ f = fleet feed feed' schedule cancelled

/-- Tables in which the four indexers find the same. -/
structure Alike (t u : Tables) : Prop where
  reached : ∀ i : Lane, u.reached i.name = t.reached i.name
  rows : ∀ i : Lane, i.rows u = i.rows t

/-- **What happens besides**: the indexers are started, whatever comes of it, or something else leaves their tables and
checkpoints alone. -/
inductive Elsewhere (chains : Chains) (s : Session γ) : Session γ → Prop
  | init {f : Fleet (Session γ)} : Honest chains f → Elsewhere chains s (f.init s).2
  | other {s' : Session γ} : Alike s.database.tables s'.database.tables → Elsewhere chains s s'

/-- **The states of any run** of the four loops from an empty database. -/
def Reaches (chains : Chains) : List Position × Session γ → Prop :=
  Runs (Honest chains) (Elsewhere chains) fun now =>
    now.2.database.tables = {} ∧ now.1 = lanes.map fun _ => .waiting

/-- Starting the indexers moves no checkpoint and writes no row. -/
theorem init_alike (feed : ConsensusFeed) (feed' : ExecutionFeed) (schedule : Schedule) (cancelled : Session γ → Bool)
    (s : Session γ) :
    Alike s.database.tables ((fleet feed feed' schedule cancelled).init s).2.database.tables := by
  have hkeeps : Keeps (Alike s.database.tables) (fleet feed feed' schedule cancelled).init := by
    refine Keeps.init (fun name => ?_) fun ix hix => ?_
    · exact .setup fun u hu => ⟨fun i => (reached_setup name i.name).trans (hu.reached i),
        fun i => (i.rows_checkpoints _ u).trans (hu.rows i)⟩
    · obtain ⟨i, -, rfl⟩ := List.mem_map.mp hix
      cases i <;> exact Ends.pure fun _ h => h
  exact hkeeps.snd ⟨fun _ => rfl, fun _ => rfl⟩

theorem Whole.alike (hw : Whole chains t) (h : Alike t u) : Whole chains u ∧ Later t u := by
  refine ⟨⟨fun i => ?_, fun i => ?_⟩, fun i => (h.reached i).ge⟩
  · rw [h.reached]
    exact hw.half i
  · rw [h.reached, h.rows]
    exact hw.stored i

/-- **In any run the four tables are whole.** -/
theorem Reaches.whole {now : List Position × Session γ} (h : Reaches chains now) :
    Whole chains now.2.database.tables := by
  suffices hstands : (pact chains).Stands (lanes.map Lane.name) now from hstands.inv
  refine Runs.stands h (fun now hnow => ?_) ?_ ?_
  · obtain ⟨positions, s⟩ := now
    obtain ⟨ht, rfl⟩ := hnow
    refine Pact.Stands.of_waiting ?_ fun p hp => ?_
    · change Whole chains s.database.tables
      rw [show s.database.tables = {} from ht]
      exact ⟨fun _ => (by decide : 0 < 0x80000000), fun i => by cases i <;> exact Raw.Stored.nil _⟩
    · obtain ⟨i, -, rfl⟩ := List.mem_map.mp hp
      rfl
  · rintro f ⟨feed, feed', schedule, cancelled, hf, rfl⟩
    refine ⟨rfl, fun ix hix => ?_⟩
    obtain ⟨i, -, rfl⟩ := List.mem_map.mp hix
    exact indexer_kept i hf schedule cancelled
  · rintro s s' (@⟨f, feed, feed', schedule, cancelled, -, rfl⟩ | halike) hw
    · exact hw.alike (init_alike feed feed' schedule cancelled s)
    · exact hw.alike halike

/-- **The raw tables have no gap and no duplicate.** In any state of any run from an empty database, the blocks of both
chains are stored once for each height up to the checkpoint, and the events of both chains are the rows of the heights up
to it. A height whose block cannot be classified, or one of whose logs cannot be decoded, is above the checkpoint. -/
theorem raw_tables_whole {now : List Position × Session γ} (h : Reaches chains now) :
    now.2.database.tables.consensusBlocks.Perm
      ((List.range' 1 (now.2.database.tables.reached Consensus.blocksName)).map chains.consensusBlock) ∧
    now.2.database.tables.consensusEvents.Perm
      ((List.range' 1 (now.2.database.tables.reached Consensus.eventsName)).flatMap chains.consensus.rows) ∧
    now.2.database.tables.executionBlocks.Perm
      ((List.range' 1 (now.2.database.tables.reached Execution.blocksName)).map fun h =>
        header (chains.executionBlock h)) ∧
    now.2.database.tables.executionEvents.Perm
      ((List.range' 1 (now.2.database.tables.reached Execution.eventsName)).flatMap chains.logRows) ∧
    (∀ h e, 1 ≤ h → rowsOfBlock h (chains.events h) = .error e →
      now.2.database.tables.reached Consensus.eventsName < h) ∧
    ∀ h log e, 1 ≤ h → log ∈ chains.logs h → Contract.rowOfLog log = .error e →
      now.2.database.tables.reached Execution.eventsName < h := by
  have hstored := h.whole.stored
  refine ⟨?_, (hstored .consensusEvents).perm, ?_, (hstored .executionEvents).perm, fun h e h₁ he => ?_,
    fun h log e h₁ hlog he => ?_⟩
  · rw [← List.flatMap_singleton' (List.map _ _), List.flatMap_map]
    exact (hstored .consensusBlocks).perm
  · rw [← List.flatMap_singleton' (List.map _ _), List.flatMap_map]
    exact (hstored .executionBlocks).perm
  · refine (hstored .consensusEvents).lt_of_unreadable h₁ fun hread => ?_
    obtain ⟨rows, hrows⟩ : ∃ rows, rowsOfBlock h (chains.events h) = .ok rows := hread
    rw [hrows] at he
    cases he
  · refine (hstored .executionEvents).lt_of_unreadable h₁ fun hread => ?_
    obtain ⟨row, hrow⟩ : Contract.Decodes log := hread log hlog
    rw [hrow] at he
    cases he

/-! ### A run that gets stuck -/

/-- Chains that cannot be read at height 3: a delegation without a delegator, and a log with a topic that is no number.
The logs of height 1 are passed over. -/
def stuckChains : Chains where
  consensusBlock h := ⟨h, "", "", 10⟩
  events h :=
    if h = 1 then
      [⟨"transfer", []⟩, ⟨"delegate_success", [⟨"amount", "3"⟩, ⟨"delegator_addr", "0xaa"⟩, ⟨"sender_address", "AA"⟩]⟩]
    else if h = 3 then [⟨"delegate_success", [⟨"amount", "3"⟩]⟩]
    else []
  executionBlock h := ⟨h, "", 0, 0, 10, [⟨"0xaa", 7⟩]⟩
  logs h :=
    if h = 1 then [⟨"", [], "", 1, "0xf1", 0, false⟩, ⟨"", ["zz"], "", 1, "0xf1", 1, true⟩]
    else if h = 3 then [⟨"", ["zz"], "", 3, "0xf3", 0, false⟩]
    else []
  consensusBlock_height _ := rfl
  executionBlock_height _ := rfl
  events_few h := by split_ifs <;> decide
  logs_block h log hlog := by
    split at hlog
    · rename_i h₁
      rcases List.mem_cons.mp hlog with rfl | hlog
      · exact h₁.symm
      · exact (List.mem_singleton.mp hlog) ▸ h₁.symm
    · split at hlog
      · rename_i h₃
        exact (List.mem_singleton.mp hlog) ▸ h₃.symm
      · cases hlog
  logs_place n := by
    rw [List.map_flatMap, List.nodup_flatMap]
    refine ⟨fun h _ => ?_, (List.nodup_range (n := n)).imp fun {h k} hne => ?_⟩
    · by_cases h₁ : h = 1
      · subst h₁
        decide +kernel
      · by_cases h₃ : h = 3 <;> simp [h₁, h₃]
    · -- only the heights 1 and 3 have logs, and those are of different transactions
      have hapart : Address.normalForm "0xf3" ≠ Address.normalForm "0xf1" := by decide +kernel
      rw [Function.onFun]
      by_cases h₁ : h = 1 <;> by_cases h₃ : h = 3 <;> by_cases k₁ : k = 1 <;> by_cases k₃ : k = 3 <;>
        simp_all [Contract.placeOf, eq_comm]

/-- A feed of the consensus chain up to height 3. -/
def stuckFeed : ConsensusFeed where
  head := .ok 3
  block h := .ok (stuckChains.consensusBlock h)
  events h := .ok (stuckChains.events h)
  commit _ := .ok []
  validators _ _ _ := .ok ⟨[], 0⟩

/-- A feed of the execution chain up to height 3. -/
def stuckFeed' : ExecutionFeed where
  head := .ok 3
  block h := .ok (stuckChains.executionBlock h)
  logs first last := .ok ((List.range' first (last + 1 - first)).flatMap stuckChains.logs)

/-- The loops of these feeds, which work off one height at a time. -/
def stuckFleet : Fleet (Session Unit) := fleet stuckFeed stuckFeed' ⟨0, 1, 1⟩ (·.cancelled)

/-- Start-up, and six rounds of turns. -/
def stuckRun : List Position × Session Unit :=
  stuckFleet.run (List.replicate 6 [0, 1, 2, 3]).flatten
    (lanes.map fun _ => .waiting, (stuckFleet.init { database := {}, cache := (), ledger := ⟨0⟩ }).2)

theorem stuckRun_reaches : Reaches stuckChains stuckRun := by
  have hf : Tells stuckChains stuckFeed stuckFeed' := by
    refine ⟨?_, ?_, ?_, ?_, ?_, ?_⟩
    · rintro _ ⟨⟩
      decide
    · exact fun _ _ hb => (Except.ok.inj hb).symm
    · exact fun _ _ hl => (Except.ok.inj hl).symm
    · rintro _ ⟨⟩
      decide
    · exact fun _ _ hb => (Except.ok.inj hb).symm
    · exact fun _ _ _ hl => (Except.ok.inj hl) ▸ .refl _
  have hhonest : Honest stuckChains stuckFleet := ⟨_, _, _, _, hf, rfl⟩
  exact ((Runs.start ⟨rfl, rfl⟩).move (.init hhonest)).turns hhonest _

/-- The blocks of all three heights are stored, and the events of both chains stop before height 3. -/
theorem stuckRun_rows :
    stuckRun.2.database.tables.consensusBlocks.Perm ((List.range' 1 3).map stuckChains.consensusBlock) ∧
      stuckRun.2.database.tables.consensusEvents.Perm ((List.range' 1 2).flatMap stuckChains.consensus.rows) ∧
      stuckRun.2.database.tables.consensusEvents = [⟨1, 1, "", .stake, true, "", "3"⟩] ∧
      stuckRun.2.database.tables.executionBlocks.Perm
        ((List.range' 1 3).map fun h => header (stuckChains.executionBlock h)) ∧
      stuckRun.2.database.tables.reached Execution.eventsName = 2 := by
  have hwhole := raw_tables_whole stuckRun_reaches
  have hblocks : stuckRun.2.database.tables.reached Consensus.blocksName = 3 := by cbv
  have hevents : stuckRun.2.database.tables.reached Consensus.eventsName = 2 := by cbv
  have hblocks' : stuckRun.2.database.tables.reached Execution.blocksName = 3 := by cbv
  rw [hblocks, hevents, hblocks'] at hwhole
  exact ⟨hwhole.1, hwhole.2.1, by cbv, hwhole.2.2.1, by cbv⟩

end StakeTrail.Indexing.Gapless
