import StakeTrail.Proofs.Indexing.Recorded

/-!
# The history is exact

`Chronicled` couples what the history depends on: its own rows and checkpoint, the stored events that its target waits
for, and the stored block times. Batches of blocks and of events keep it, and a range of the history moves it to the end
of the range (`range_effect`): whatever is asked for again is passed over, since a range goes on from the last row.

* `Reaches` are the states of any run that starts with the first row.
* **The main statement** (`history_exact`) says which rows there are, in terms of the stored events alone.
-/

namespace StakeTrail.Indexing.History

open StakeTrail.Action Store Database Session Consensus Stake Staking

variable {γ : Type} {chain : ConsensusChain} {genesis : Genesis} {C E : Nat} {t u : Tables} {l : Ledger}
  {feed : ConsensusFeed} {first last : Nat}

/-- The amounts of the changes above one height and up to another are numerals. -/
def Legible (chain : ConsensusChain) (a b : Nat) : Prop :=
  ∀ h, a < h → h ≤ b → ∀ e ∈ chain.rows h, e.change? ≠ none → ∃ n, readAmount e.amount = .ok n

/-- **The history stands at `C`**, and the stored events at `E`. -/
structure Chronicled (chain : ConsensusChain) (genesis : Genesis) (C E : Nat) (t : Tables) : Prop where
  checkpoint : t.reached historyName = C
  eventCheckpoint : t.reached eventsName = E
  covered : C ≤ E
  half : E < 0x80000000
  rows : t.history = chain.annals genesis C
  blocks : Timely chain t.consensusBlocks
  recorded : Recorded chain E t.consensusEvents
  legible : Legible chain genesis.block C

/-- **The numbers of the history are half words**: its first block and all its amounts, which a query hands back as they
are, and the places of the events that it is made of. -/
structure Held (chain : ConsensusChain) (genesis : Genesis) : Prop where
  block : genesis.block < 0x80000000
  amounts : ∀ b < 0x80000000, 0 ≤ chain.heldAt genesis b ∧ chain.heldAt genesis b < 0x80000000
  numbered : chain.Numbered

/-- Whatever leaves alone what the history depends on. -/
theorem Chronicled.frame (hs : Chronicled chain genesis C E t) (hhistory : u.history = t.history)
    (hevents : u.consensusEvents = t.consensusEvents) (hblocks : u.consensusBlocks = t.consensusBlocks)
    (hc : u.reached historyName = t.reached historyName) (he : u.reached eventsName = t.reached eventsName) :
    Chronicled chain genesis C E u where
  checkpoint := hc.trans hs.checkpoint
  eventCheckpoint := he.trans hs.eventCheckpoint
  covered := hs.covered
  half := hs.half
  rows := hhistory.trans hs.rows
  blocks := hblocks ▸ hs.blocks
  recorded := hevents ▸ hs.recorded
  legible := hs.legible

/-! ## Batches -/

/-- **What a batch of blocks does**: its blocks have the times of the chain. -/
theorem blocks_effect (hf : feed.Follows chain) (hlast : last < 0x80000000) :
    Ends (At t l) ((blocks feed).cover first last)
      (fun _ (s : Session γ) => ∃ rows, Timely chain rows ∧ At (Tables.advance blocksName last
        { t with consensusBlocks := Keyed.putAll ConsensusBlock.height rows t.consensusBlocks }) l s) (At t l) := by
  refine Ends.ofExcept.bind fun rows => Ends.assuming fun hrows => ?_
  refine (onStore_ends (consensusBlocks_ends blocksName rows last)).post fun _ s h => ?_
  exact ⟨rows, timely_gather hf hlast hrows, h⟩

/-- **What a batch of events does** that leaves no gap: it records its heights. -/
theorem events_effect (hr : Recorded chain E t.consensusEvents) (hf : feed.Follows chain) (hfirst : first ≤ E + 1)
    (hlast : last < 0x80000000) :
    Ends (At t l) ((events feed).cover first last)
      (fun _ (s : Session γ) => ∃ rows,
        Recorded chain (max E last) (Keyed.putAll consensusEventKey rows t.consensusEvents) ∧
        (∃ c, t.checkpoint? eventsName = some c) ∧ At (Tables.advance eventsName last
          { t with consensusEvents := Keyed.putAll consensusEventKey rows t.consensusEvents }) l s) (At t l) := by
  refine Ends.ofExcept.bind fun lists => Ends.assuming fun hlists => ?_
  refine Ends.ofExcept.bind fun rows => Ends.assuming fun hrows => ?_
  have hlists : lists = (List.range' first (last + 1 - first)).map chain.events := by
    simpa using Feed.gather_map (f := fun a => a) hf.events hlists
  subst hlists
  obtain ⟨hall, hmem⟩ := mem_rowsOfHeights hrows
  refine (onStore_ends (consensusEvents_ends eventsName rows last)).post ?_
  rintro _ s ⟨⟨hcheck, ht⟩, hl⟩
  exact ⟨rows, hr.putAll hfirst hlast hall hmem, hcheck, ht, hl⟩

/-- **What is collected from the stored events of a range** is what is due at its heights, with the times of the chain;
every amount among them is a numeral. -/
theorem changes_tally (hs : Chronicled chain genesis C E t) {a : Nat} (hle : a + 1 ≤ last) (hlast : last ≤ E)
    {deltas : Deltas} {times : Times}
    (h : Deltas.ofChanges ((changesOf (a + 1) last t.consensusEvents).map (changeOf t.consensusBlocks)) =
      .ok (deltas, times)) :
    chain.Tallies a last deltas ∧ (∀ p ∈ times, p.2 = chain.time p.1) ∧ Legible chain a last := by
  have hhalf := hs.half
  have hcollected := ofChanges_eq h
  refine ⟨⟨hcollected.ascends, fun ⟨k, x⟩ => ?_⟩, fun p hp => ?_, fun k h₁ h₂ e he hne => ?_⟩
  · have hfound : (k, x) ∈ deltas ↔ Keyed.get? Prod.fst k deltas = some (k, x) := by
      rw [Keyed.get?_iff hcollected.ascends.nodup]
      exact ⟨fun hp => ⟨hp, rfl⟩, And.left⟩
    rw [hfound, hcollected.due, dueAt_changes hs.recorded hs.half (by omega) hle hlast]
    constructor
    · intro hp
      obtain ⟨d, hd, heq⟩ := Option.map_eq_some_iff.mp hp
      cases heq
      split at hd
      · rename_i hin
        exact ⟨hin.1, hin.2, hd⟩
      · cases hd
    · rintro ⟨h₁, h₂, hd⟩
      rw [if_pos ⟨h₁, h₂⟩, hd]
      rfl
  · obtain ⟨c, hc, hblock, htime⟩ := hcollected.times p hp
    obtain ⟨e, he, rfl⟩ := List.mem_map.mp hc
    obtain ⟨hev, -, -, hne⟩ := (mem_changesOf hs.recorded hle (by omega)).mp he
    rw [(changeOf_eq (hs.recorded.sound e hev).1 (change?_ne_none.mp hne).1).1] at hblock
    rw [time_of_change hs.blocks htime, hblock]
  · have hblock := ConsensusChain.rows_block he
    have hev := (hs.recorded.complete k (Finset.mem_Icc.mpr (by omega))).2 e he
    exact hcollected.readable _ (List.mem_map_of_mem ((mem_changesOf hs.recorded hle (by omega)).mpr
      ⟨hev, by omega, by omega, hne⟩))

/-- Heights without a row have no changes, and those of a range are numerals: so are all up to its end. -/
theorem Chronicled.legible_through (hs : Chronicled chain genesis C E t) {a : Nat}
    (hquiet : ∀ h, min a C < h → h ≤ max a C → ¬ chain.Marks genesis h) (h : Legible chain a (max a last)) :
    Legible chain genesis.block (max C last) := by
  intro k h₁ h₂ e he hne
  by_cases hC : k ≤ C
  · exact hs.legible k h₁ hC e he hne
  by_cases ha : a < k
  · exact h k ha (by omega) e he hne
  · have hdue : chain.due k = none := not_not.mp fun hdue => hquiet k (by omega) (by omega) ⟨h₁, hdue⟩
    rw [ConsensusChain.due, dueOf_eq_none, List.filterMap_eq_nil_iff] at hdue
    exact absurd (hdue e he) hne

/-- **What the changes of a range do**: they continue the history. -/
theorem continue_effect (hs : Chronicled chain genesis C E t) {a : Nat} (hga : genesis.block ≤ a)
    (hquiet : ∀ h, min a C < h → h ≤ max a C → ¬ chain.Marks genesis h) {amount : Int}
    (hamount : amount = chain.heldAt genesis C) {changes : List Change}
    (htally : ∀ deltas times, Deltas.ofChanges changes = .ok (deltas, times) →
      chain.Tallies a (max a last) deltas ∧ (∀ p ∈ times, p.2 = chain.time p.1) ∧ Legible chain a (max a last)) :
    Ends (At t l) (commitChanges amount last changes)
      (fun _ (s : Session γ) => ∃ rows, settle rows t.history = chain.annals genesis (max C last) ∧
        Legible chain genesis.block (max C last) ∧ (∃ c, t.checkpoint? historyName = some c) ∧
        At (Tables.advance historyName last { t with history := settle rows t.history }) l s) (At t l) := by
  obtain ⟨hrows, hheld⟩ := ConsensusChain.annals_between hquiet
  refine Ends.ofExcept.bind fun ⟨deltas, times⟩ => Ends.assuming fun hcollected => ?_
  obtain ⟨htallies, htimes, hlegible⟩ := htally deltas times hcollected
  refine Ends.ofExcept.bind fun ⟨ledger, rows⟩ => Ends.assuming fun happlied => ?_
  have hpiled : Piled t.history [] a := by
    refine ⟨?_, fun r hr => ?_⟩
    · rw [List.append_nil, hs.rows]
      exact ConsensusChain.annals_ascend C
    · rw [List.append_nil, hs.rows, ← hrows] at hr
      have := (ConsensusChain.block_le_of_mem hr).2
      omega
  have hsettled : settle rows t.history = chain.annals genesis (max a last) :=
    ConsensusChain.applyByBlockOnto_annals htimes hga (le_max_left _ _) htallies (hamount.trans hheld.symm)
      (show settle [] t.history = _ from hs.rows.trans hrows.symm) hpiled happlied
  have hsame : chain.annals genesis (max a last) = chain.annals genesis (max C last) :=
    (ConsensusChain.annals_between fun h h₁ h₂ => hquiet h (by omega) (by omega)).1
  refine (onStore_ends (history_ends historyName rows last)).post ?_
  rintro _ s ⟨⟨hcheck, ht⟩, hl⟩
  exact ⟨rows, hsettled.trans hsame, hs.legible_through hquiet hlegible, hcheck, ht, hl⟩

/-- **What a range of the history does** that leaves no gap and ends where the stored events do: it continues the
history. -/
theorem range_effect (hs : Chronicled chain genesis C E t) (hheld : Held chain genesis) (hfirst : first ≤ C + 1)
    (hlast : last ≤ E) :
    Ends (At t l) ((history genesis).cover first last)
      (fun _ (s : Session γ) => ∃ rows, settle rows t.history = chain.annals genesis (max C last) ∧
        Legible chain genesis.block (max C last) ∧ (∃ c, t.checkpoint? historyName = some c) ∧
        At (Tables.advance historyName last { t with history := settle rows t.history }) l s) (At t l) := by
  have hhalf := hs.half
  have hcovered := hs.covered
  obtain ⟨h₀, h₁⟩ := hheld.amounts C (by omega)
  refine (onStore_reads (latestHistory_ends hs.rows (by omega) hheld.block h₀ h₁)).bind fun r => Ends.assuming ?_
  rintro ⟨latest, rfl, hblock, hamount⟩
  simp only [Option.getD_some]
  refine Ends.ofExcept.bind fun next => Ends.assuming fun hnext => ?_
  obtain ⟨a, hstart, hga, hquiet⟩ := chain.annals_resume genesis hfirst
  rw [Uptime.successor_eq hnext, hblock, hstart]
  split
  · rename_i hle
    refine (onStore_reads (query_ends _)).bind fun changes => Ends.assuming ?_
    rintro rfl
    refine continue_effect hs hga hquiet hamount fun deltas times h => ?_
    rw [max_eq_right (by omega)]
    exact changes_tally hs hle hlast h
  · -- a range that ends before it goes on has no changes
    refine (Ends.pure (Q := fun changes s => changes = [] ∧ At t l s) fun s h => ⟨rfl, h⟩).bind fun changes =>
      Ends.assuming ?_
    rintro rfl
    refine continue_effect hs hga hquiet hamount fun deltas times h => ?_
    cases h
    exact ⟨⟨.nil, fun p => ⟨by simp, fun ⟨_, _, _⟩ => by omega⟩⟩, by simp, fun k h₁ h₂ => by omega⟩

/-! ## What batches keep -/

theorem Chronicled.blocks_batch (hs : Chronicled chain genesis C E t) {rows : List ConsensusBlock}
    (hrows : Timely chain rows) :
    Chronicled chain genesis C E (Tables.advance blocksName last
      { t with consensusBlocks := Keyed.putAll ConsensusBlock.height rows t.consensusBlocks }) where
  checkpoint := by
    rw [reached_advance_of_ne (by decide)]
    exact hs.checkpoint
  eventCheckpoint := by
    rw [reached_advance_of_ne (by decide)]
    exact hs.eventCheckpoint
  covered := hs.covered
  half := hs.half
  rows := hs.rows
  blocks := hrows.putAll hs.blocks
  recorded := hs.recorded
  legible := hs.legible

theorem Chronicled.events_batch (hs : Chronicled chain genesis C E t) (hlast : last < 0x80000000)
    (hcheck : ∃ c, t.checkpoint? eventsName = some c) {rows : List ConsensusEvent}
    (hrows : Recorded chain (max E last) (Keyed.putAll consensusEventKey rows t.consensusEvents)) :
    Chronicled chain genesis C (max E last) (Tables.advance eventsName last
      { t with consensusEvents := Keyed.putAll consensusEventKey rows t.consensusEvents }) := by
  have hE : t.reached eventsName = E := hs.eventCheckpoint
  have hhalf := hs.half
  refine ⟨?_, ?_, hs.covered.trans (le_max_left _ _), by omega, hs.rows, hs.blocks, hrows, hs.legible⟩
  · rw [reached_advance_of_ne (by decide)]
    exact hs.checkpoint
  · exact (reached_advance rfl hcheck (by omega) (by omega)).trans (by rw [hE])

theorem Chronicled.range_batch (hs : Chronicled chain genesis C E t) (hlast : last ≤ E)
    (hcheck : ∃ c, t.checkpoint? historyName = some c) {rows : List HistoryPoint}
    (hrows : settle rows t.history = chain.annals genesis (max C last))
    (hlegible : Legible chain genesis.block (max C last)) :
    Chronicled chain genesis (max C last) E
      (Tables.advance historyName last { t with history := settle rows t.history }) := by
  have hC : t.reached historyName = C := hs.checkpoint
  have hcovered := hs.covered
  have hhalf := hs.half
  refine ⟨?_, ?_, max_le hs.covered hlast, hs.half, hrows, hs.blocks, hs.recorded, hlegible⟩
  · exact (reached_advance rfl hcheck (by omega) (by omega)).trans (by rw [hC])
  · rw [reached_advance_of_ne (by decide)]
    exact hs.eventCheckpoint

/-- Starting up once more changes no row: the second of the first row is taken. -/
theorem Chronicled.seed (hs : Chronicled chain genesis C E t) :
    placeHistory genesis.historyPoint t.history = t.history := by
  rw [hs.rows]
  obtain ⟨r, hr, htime⟩ := chain.exists_first_second genesis C
  exact placeHistory_of_mem hr htime

theorem init_ends :
    Ends (At t l) (history (γ := γ) genesis).init
      (fun _ => At { t with history := placeHistory genesis.historyPoint t.history } l) (At t l) :=
  onStore_ends (write_ends fun t => { t with history := placeHistory genesis.historyPoint t.history })

/-! ## Runs -/

/-- **The states of any run**: the first row on an empty database, further start-ups, batches of blocks, batches of
events that leave no gap, ranges of the history that leave no gap and end where the stored events do or before, and
whatever else touches none of their tables and checkpoints. Every batch has a feed of its own, and whatever fails in it,
the run goes on. -/
inductive Reaches (chain : ConsensusChain) (genesis : Genesis) : Session γ → Prop
  | boot {s s' : Session γ} : s.database.tables = {} → (history genesis).init s = (.ok (), s') →
      Reaches chain genesis s'
  | init {s : Session γ} : Reaches chain genesis s → Reaches chain genesis ((history genesis).init s).2
  | blocks {feed : ConsensusFeed} {first last : Nat} {s : Session γ} : Reaches chain genesis s → feed.Follows chain →
      last < 0x80000000 → Reaches chain genesis ((Consensus.blocks feed).cover first last s).2
  | events {feed : ConsensusFeed} {first last : Nat} {s : Session γ} : Reaches chain genesis s → feed.Follows chain →
      last < 0x80000000 → first ≤ s.database.tables.reached eventsName + 1 →
      Reaches chain genesis ((Consensus.events feed).cover first last s).2
  | range {first last : Nat} {s : Session γ} : Reaches chain genesis s →
      first ≤ s.database.tables.reached historyName + 1 → last ≤ s.database.tables.reached eventsName →
      Reaches chain genesis ((history genesis).cover first last s).2
  | elsewhere {s s' : Session γ} : Reaches chain genesis s →
      s'.database.tables.history = s.database.tables.history →
      s'.database.tables.consensusEvents = s.database.tables.consensusEvents →
      s'.database.tables.consensusBlocks = s.database.tables.consensusBlocks →
      s'.database.tables.reached historyName = s.database.tables.reached historyName →
      s'.database.tables.reached eventsName = s.database.tables.reached eventsName → Reaches chain genesis s'

/-- Setting up any checkpoint. -/
theorem Reaches.setup {s : Session γ} (h : Reaches chain genesis s) (schedule : Schedule) (name : String) :
    Reaches chain genesis ((Session.loop schedule).checkpoints.setup name s).2 := by
  refine ((setup_ends schedule name).mono (F := Reaches chain genesis) (fun _ h => h) ?_ ?_).snd (s := s) ⟨rfl, rfl⟩
  · rintro _ s' ⟨ht, -⟩
    refine h.elsewhere ?_ ?_ ?_ ?_ ?_ <;> rw [ht]
    · exact reached_setup name historyName
    · exact reached_setup name eventsName
  · rintro s' ⟨ht, -⟩
    refine h.elsewhere ?_ ?_ ?_ ?_ ?_ <;> rw [ht]

/-- **In any run the history stands** at the stored checkpoint. -/
theorem Reaches.chronicled (hheld : Held chain genesis) {s : Session γ} (h : Reaches chain genesis s) :
    ∃ C E, Chronicled chain genesis C E s.database.tables := by
  -- a fault leaves the tables as they were
  have keep : ∀ {C E : Nat} {s : Session γ}, Chronicled chain genesis C E s.database.tables →
      ∀ s' : Session γ, At s.database.tables s.ledger s' → ∃ C E, Chronicled chain genesis C E s'.database.tables :=
    fun hs s' h => ⟨_, _, h.1 ▸ hs⟩
  induction h with
  | @boot s s' ht hinit =>
    obtain ⟨ht', -⟩ := (init_ends (t := {}) (l := s.ledger)).of_ok ⟨ht, rfl⟩ hinit
    rw [ht']
    exact ⟨0, 0, rfl, rfl, le_rfl, by decide, rfl, fun _ hb => (nomatch hb), .nil hheld.numbered,
      fun h h₁ h₂ => by omega⟩
  | init _ ih =>
    obtain ⟨C, E, hs⟩ := ih
    refine (init_ends.mono (fun _ h => h) (fun _ s' h => ?_) (keep hs)).snd ⟨rfl, rfl⟩
    rw [hs.seed] at h
    exact keep hs s' h
  | blocks _ hf hlast ih =>
    obtain ⟨C, E, hs⟩ := ih
    refine ((blocks_effect hf hlast).mono (fun _ h => h) (fun _ s' h => ?_) (keep hs)).snd ⟨rfl, rfl⟩
    obtain ⟨rows, hrows, ht, -⟩ := h
    exact ⟨C, E, ht ▸ hs.blocks_batch hrows⟩
  | events _ hf hlast hfirst ih =>
    obtain ⟨C, E, hs⟩ := ih
    rw [hs.eventCheckpoint] at hfirst
    refine ((events_effect hs.recorded hf hfirst hlast).mono (fun _ h => h) (fun _ s' h => ?_) (keep hs)).snd ⟨rfl, rfl⟩
    obtain ⟨rows, hrows, hcheck, ht, -⟩ := h
    exact ⟨C, _, ht ▸ hs.events_batch hlast hcheck hrows⟩
  | range _ hfirst hlast ih =>
    obtain ⟨C, E, hs⟩ := ih
    rw [hs.checkpoint] at hfirst
    rw [hs.eventCheckpoint] at hlast
    refine ((range_effect hs hheld hfirst hlast).mono (fun _ h => h) (fun _ s' h => ?_) (keep hs)).snd ⟨rfl, rfl⟩
    obtain ⟨rows, hrows, hlegible, hcheck, ht, -⟩ := h
    exact ⟨_, E, ht ▸ hs.range_batch hlast hcheck hrows hlegible⟩
  | elsewhere _ hhistory hevents hblocks hc he ih =>
    obtain ⟨C, E, hs⟩ := ih
    exact ⟨C, E, hs.frame hhistory hevents hblocks hc he⟩

/-! ## The rows in terms of the stored events -/

/-- Whether the stored events of a height hold a change. -/
def Moves (events : List ConsensusEvent) (h : Nat) : Prop := ∃ e ∈ events, e.block = h ∧ e.change? ≠ none

/-- What the stored events above one height and up to another add up to. -/
def netBetween (a b : Nat) (events : List ConsensusEvent) : Int :=
  ((events.filter fun e => a < e.block ∧ e.block ≤ b).filterMap ConsensusEvent.change?).sum

/-- It is the sum over the heights of what is stored at each. -/
theorem netBetween_eq (a b : Nat) (events : List ConsensusEvent) :
    netBetween a b events =
      ∑ h ∈ Finset.Ioc a b, (events.filterMap fun e => if e.block = h then e.change? else none).sum := by
  unfold netBetween
  induction events with
  | nil => simp
  | cons e events ih =>
    have hcons : ∀ h, ((e :: events).filterMap fun e => if e.block = h then e.change? else none).sum =
        (if e.block = h then e.change?.getD 0 else 0) +
          (events.filterMap fun e => if e.block = h then e.change? else none).sum := by
      intro h
      by_cases hh : e.block = h
      · rcases he : e.change? with _ | d <;> simp [hh, he]
      · simp [hh]
    simp only [hcons]
    rw [Finset.sum_add_distrib, Finset.sum_ite_eq, ← ih]
    by_cases hin : a < e.block ∧ e.block ≤ b
    · rcases he : e.change? with _ | d <;> simp [hin, he]
    · simp [hin]

theorem moves_iff (hs : Chronicled chain genesis C E t) {h : Nat} (hh : h ∈ Finset.Icc 1 E) :
    Moves t.consensusEvents h ↔ chain.due h ≠ none := by
  rw [← hs.recorded.due_eq hh, Ne, dueOf_eq_none, List.filterMap_eq_nil_iff]
  constructor
  · rintro ⟨e, he, rfl, hne⟩ hno
    exact hne (by simpa using hno e he)
  · intro hex
    by_contra hno
    refine hex fun e he => ?_
    split
    · rename_i hblock
      by_contra hne
      exact hno ⟨e, he, hblock, hne⟩
    · rfl

theorem marks_iff (hs : Chronicled chain genesis C E t) {h : Nat} (hh : h ≤ C) :
    chain.Marks genesis h ↔ genesis.block < h ∧ Moves t.consensusEvents h := by
  have hcovered := hs.covered
  refine and_congr_right fun hlt => (moves_iff hs (Finset.mem_Icc.mpr (by omega))).symm

/-- The amount after a height, in terms of the stored events. -/
theorem heldAt_stored (hs : Chronicled chain genesis C E t) {b : Nat} (hb : b ≤ max C genesis.block) :
    chain.heldAt genesis b = genesis.amount + netBetween genesis.block b t.consensusEvents := by
  have hcovered := hs.covered
  rw [ConsensusChain.heldAt_eq, netBetween_eq]
  congr 1
  refine Finset.sum_congr rfl fun h hh => ?_
  rw [Finset.mem_Ioc] at hh
  rw [← hs.recorded.due_eq (Finset.mem_Icc.mpr (by omega)), getD_dueOf]

/-- **The history is exact** in every state that a run reaches, in whatever order batches and start-ups come, however
often a range is asked for again and whatever fails.

With the checkpoint at `C`, the row of a block holds the first amount and what the stored events above the first block
and up to this block add up to.

* A height above the first block and up to `C` whose stored events hold a change has a row, with the time of its block,
  unless a later such height shares its second.
* There are no other rows but the first one, which is there as long as no such height has its second.
* No two rows share a block or a second.
* The amount of every change that counts is a numeral. -/
theorem history_exact (hheld : Held chain genesis) {s : Session γ} (h : Reaches chain genesis s) :
    ∃ C, s.database.tables.reached historyName = C ∧
      (∀ row ∈ s.database.tables.history,
        row.amount = genesis.amount + netBetween genesis.block row.block s.database.tables.consensusEvents) ∧
      (∀ h ∈ Finset.Ioc genesis.block C, Moves s.database.tables.consensusEvents h →
        (∀ k ∈ Finset.Ioc h C, Moves s.database.tables.consensusEvents k → chain.time k ≠ chain.time h) →
        ∃ row ∈ s.database.tables.history, row.block = h ∧ row.time = chain.time h) ∧
      (∀ row ∈ s.database.tables.history, row = genesis.historyPoint ∨
        row.block ∈ Finset.Ioc genesis.block C ∧ Moves s.database.tables.consensusEvents row.block ∧
          row.time = chain.time row.block ∧
          ∀ k ∈ Finset.Ioc row.block C, Moves s.database.tables.consensusEvents k → chain.time k ≠ row.time) ∧
      (genesis.historyPoint ∈ s.database.tables.history ↔ ∀ h ∈ Finset.Ioc genesis.block C,
        Moves s.database.tables.consensusEvents h → chain.time h ≠ genesis.time) ∧
      (s.database.tables.history.map HistoryPoint.block).Nodup ∧
      (s.database.tables.history.map HistoryPoint.time).Nodup ∧
      ∀ e ∈ s.database.tables.consensusEvents, e.block ∈ Finset.Ioc genesis.block C → e.change? ≠ none →
        ∃ n, readAmount e.amount = .ok n := by
  obtain ⟨C, E, hs⟩ := h.chronicled hheld
  have hmarks : ∀ {k}, k ∈ Finset.Ioc genesis.block C → Moves s.database.tables.consensusEvents k →
      chain.Marks genesis k := fun hk hm => by
    rw [Finset.mem_Ioc] at hk
    exact (marks_iff hs hk.2).mpr ⟨hk.1, hm⟩
  have hmoves : ∀ {k}, k ≤ C → chain.Marks genesis k →
      k ∈ Finset.Ioc genesis.block C ∧ Moves s.database.tables.consensusEvents k := fun hk hm => by
    obtain ⟨hlt, hmoves⟩ := (marks_iff hs hk).mp hm
    exact ⟨Finset.mem_Ioc.mpr ⟨hlt, hk⟩, hmoves⟩
  refine ⟨C, hs.checkpoint, fun row hrow => ?_, fun h hh hm hlast => ?_, fun row hrow => ?_, ?_, ?_, ?_,
    fun e he hblock hne => ?_⟩
  · rw [hs.rows] at hrow
    have hamount : row.amount = chain.heldAt genesis row.block := by
      rcases ConsensusChain.mem_annals.mp hrow with ⟨rfl, -⟩ | ⟨h, -, -, -, rfl⟩
      · exact (ConsensusChain.heldAt_of_le le_rfl).symm
      · rfl
    rw [hamount, heldAt_stored hs (ConsensusChain.block_le_of_mem hrow).2]
  · refine ⟨chain.row genesis h, ?_, rfl, rfl⟩
    rw [hs.rows]
    refine ConsensusChain.mem_annals.mpr (.inr ⟨h, (Finset.mem_Ioc.mp hh).2, hmarks hh hm, fun k hk hkC hmk => ?_, rfl⟩)
    exact hlast k (Finset.mem_Ioc.mpr ⟨hk, hkC⟩) (hmoves hkC hmk).2
  · rw [hs.rows] at hrow
    rcases ConsensusChain.mem_annals.mp hrow with ⟨rfl, -⟩ | ⟨h, hh, hm, hno, rfl⟩
    · exact .inl rfl
    · obtain ⟨hin, hmh⟩ := hmoves hh hm
      refine .inr ⟨hin, hmh, rfl, fun k hk hmk => ?_⟩
      obtain ⟨hhk, hkC⟩ := Finset.mem_Ioc.mp hk
      have hgk : genesis.block < k := (Finset.mem_Ioc.mp hin).1.trans hhk
      exact hno k hhk hkC (hmarks (Finset.mem_Ioc.mpr ⟨hgk, hkC⟩) hmk)
  · rw [hs.rows, ConsensusChain.mem_annals]
    constructor
    · rintro (⟨-, hno⟩ | ⟨h, -, hm, -, heq⟩)
      · exact fun k hk hmk => hno k (Finset.mem_Ioc.mp hk).2 (hmarks hk hmk)
      · -- no other height has the block of the first row
        have hblock : genesis.block = h := congrArg HistoryPoint.block heq
        exact absurd hm.1 (by omega)
    · exact fun hno => .inl ⟨rfl, fun k hk hm => hno k (hmoves hk hm).1 (hmoves hk hm).2⟩
  · rw [hs.rows]
    exact ConsensusChain.nodup_annals_block C
  · rw [hs.rows]
    exact ConsensusChain.nodup_annals_time C
  · obtain ⟨h₁, h₂⟩ := Finset.mem_Ioc.mp hblock
    exact hs.legible e.block h₁ h₂ e (hs.recorded.sound e he).2 hne

/-! ## A run -/

/-- A delegation of 5 at height 2 and an undelegation of 2 at height 3, in one second. -/
def sampleChain : ConsensusChain where
  events h :=
    if h = 2 then
      [⟨"delegate_success", [⟨"amount", "5"⟩, ⟨"delegator_addr", "0xaa"⟩, ⟨"sender_address", "AA"⟩]⟩]
    else if h = 3 then
      [⟨"undelegate_success", [⟨"amount", "2"⟩, ⟨"delegator_addr", "0xaa"⟩, ⟨"sender_address", "AA"⟩]⟩]
    else []
  time h := if h < 2 then 50 else 100
  time_nonneg h := by split <;> decide
  time_lt h := by split <;> decide

/-- The first amount is 10, at block 1. -/
def sampleGenesis : Genesis := ⟨10, 50, 1⟩

/-- A feed of this chain that never fails. -/
def sampleFeed : ConsensusFeed where
  head := .ok 3
  block h := .ok ⟨h, "", "", sampleChain.time h⟩
  events h := .ok (sampleChain.events h)
  commit _ := .ok []
  validators _ _ _ := .ok ⟨[], 0⟩

/-- The first row, the checkpoints, all blocks and events, and the history in two ranges. -/
def sampleRun : Session Unit :=
  let booted := ((history sampleGenesis).init { database := {}, cache := (), ledger := ⟨0⟩ }).2
  let set₁ := ((Session.loop {}).checkpoints.setup blocksName booted).2
  let set₂ := ((Session.loop {}).checkpoints.setup eventsName set₁).2
  let set₃ := ((Session.loop {}).checkpoints.setup historyName set₂).2
  let stored := ((Consensus.events sampleFeed).cover 1 3 ((Consensus.blocks sampleFeed).cover 1 3 set₃).2).2
  ((history sampleGenesis).cover 3 3 ((history sampleGenesis).cover 1 2 stored).2).2

theorem sampleFeed_follows : sampleFeed.Follows sampleChain where
  events _ _ hl := (Except.ok.inj hl).symm
  block _ _ hb := by
    cases hb
    exact ⟨rfl, rfl⟩

theorem due_sample {h : Nat} (h₂ : h ≠ 2) (h₃ : h ≠ 3) : sampleChain.due h = none := by
  have hevents : sampleChain.events h = [] := by simp [sampleChain, h₂, h₃]
  simp [ConsensusChain.due, ConsensusChain.rows, hevents, rowsOfBlock, rowsFrom, Except.toOption, dueOf]

theorem sample_held : Held sampleChain sampleGenesis := by
  have hlow : sampleChain.heldAt sampleGenesis 2 = 15 ∧ sampleChain.heldAt sampleGenesis 3 = 13 := by
    constructor <;> cbv
  have hhigh : ∀ n, sampleChain.heldAt sampleGenesis (n + 3) = 13 := by
    intro n
    induction n with
    | zero => exact hlow.2
    | succ n ih =>
      rw [ConsensusChain.heldAt, ih, due_sample (by omega) (by omega)]
      simp
  refine ⟨by decide, fun b _ => ?_, fun h => ?_⟩
  · rcases b with _ | _ | _ | n
    · decide
    · decide +kernel
    · simp [hlow.1]
    · simp [hhigh n]
  · simp only [sampleChain]
    split_ifs <;> decide

theorem sampleRun_reaches : Reaches sampleChain sampleGenesis sampleRun := by
  have hinit : (history sampleGenesis).init ({ database := {}, cache := (), ledger := ⟨0⟩ } : Session Unit) =
      (.ok (), _) := Prod.ext rfl rfl
  have hboot : Reaches sampleChain sampleGenesis _ := .boot (by rfl) hinit
  have hset := ((hboot.setup {} blocksName).setup {} eventsName).setup {} historyName
  exact .range (.range (.events (.blocks hset sampleFeed_follows (by decide)) sampleFeed_follows (by decide)
    (by omega)) (by omega) (by cbv)) (by cbv) (by cbv)

/-- The rows after the run: the later height took over the second, in a range of its own. -/
theorem sampleRun_chronicled :
    sampleRun.database.tables.history = [⟨1, 50, 10⟩, ⟨3, 100, 13⟩] ∧
      (sampleRun.database.tables.history.map HistoryPoint.time).Nodup ∧
      (13 : Int) = 10 + netBetween 1 3 sampleRun.database.tables.consensusEvents := by
  have hrows : sampleRun.database.tables.history = [⟨1, 50, 10⟩, ⟨3, 100, 13⟩] := by cbv
  obtain ⟨C, -, hamount, -, -, -, -, htimes, -⟩ := history_exact sample_held sampleRun_reaches
  exact ⟨hrows, htimes, hamount ⟨3, 100, 13⟩ (by simp [hrows])⟩

end StakeTrail.Indexing.History
