import Mathlib
import StakeTrail.Proofs.Indexing.History
import StakeTrail.Proofs.Indexing.Runs
import StakeTrail.Proofs.Stake.Dated
import StakeTrail.Proofs.Store.Atomic
import StakeTrail.Rpc.ConsensusNode

/-!
# No block time is ever missing

The total and its history ask the database for the times of blocks. Their targets lie no higher than the checkpoint of
the blocks, and every height up to that checkpoint has a stored block (`Grounded`). Since checkpoints do not move back,
this still holds when a range that was found earlier is worked off, whatever the other loops have done in between.

* The lookups find every height that is stored (`blockTimes_gives`, `stakeChanges_gives`), so no piece within its target
  misses a block time (`total_gives`, `history_gives`).
* **The main statement** (`block_times_found`): in any run of the loops of the blocks, the events, the total and its
  history, no piece of the latter two that is due, and no whole tick of theirs, ends with a missing block time. This
  holds of the loops of a node at the end of a line, whatever goes wrong on the line (`node_times_found`).
-/

namespace StakeTrail.Indexing.BlockTimes

open StakeTrail.Action Store Database Session Consensus Stake Staking

variable {γ α : Type} {chain : ConsensusChain} {genesis : Genesis} {t u : Tables} {l : Ledger} {feed : ConsensusFeed}
  {first last : Nat}

/-- **Every height that the checkpoint of the blocks covers is stored**, with the time that the chain has. -/
structure Grounded (chain : ConsensusChain) (t : Tables) : Prop where
  half : t.reached blocksName < 0x80000000
  blocks : Timely chain t.consensusBlocks
  covered : ∀ h, 1 ≤ h → h ≤ t.reached blocksName → ∃ b ∈ t.consensusBlocks, b.height = h
  events : ∀ e ∈ t.consensusEvents, e.block < 0x80000000

/-! ## Lookups -/

/-- **The range query finds** every stored height that it is asked for. -/
theorem timesBetween_complete {blocks : List ConsensusBlock} {low high h : Nat} {heights : List Nat}
    (hh : h ∈ heights) (hb : ∃ b ∈ blocks, b.height = h) (hlow : low ≤ h) (hle : h ≤ high) (hhigh : high < 0x80000000) :
    ∃ q, Keyed.get? Prod.fst h (timesBetween low high heights blocks) = some q := by
  have hfold : ∀ {rows : List ConsensusBlock} {times : Times},
      ((∃ b ∈ rows, b.height = h) ∨ ∃ q, Keyed.get? Prod.fst h times = some q) →
      ∃ q, Keyed.get? Prod.fst h (rows.foldl (fun times b =>
        if heights.contains (Word.readBack b.height) then
          Keyed.put Prod.fst (Word.readBack b.height, Word.low b.time) times
        else times) times) = some q := by
    intro rows
    induction rows with
    | nil =>
      rintro times (⟨b, hb, -⟩ | hq)
      · cases hb
      · exact hq
    | cons b rows ih =>
      intro times hor
      refine ih ?_
      -- the block of the height enters the times, and no later one takes the height out
      by_cases hrest : ∃ c ∈ rows, c.height = h
      · exact .inl hrest
      right
      beta_reduce
      rcases hor with ⟨c, hc, hch⟩ | ⟨q, hq⟩
      · have hcb : c = b := (List.mem_cons.mp hc).resolve_right fun hc => hrest ⟨c, hc, hch⟩
        subst hcb
        have hread : Word.readBack c.height = h := by rw [hch, Word.readBack_of_lt (by omega)]
        rw [hread, if_pos (List.contains_iff_mem.mpr hh), Keyed.get?_put, if_pos rfl]
        exact ⟨_, rfl⟩
      · split
        · rw [Keyed.get?_put]
          split
          · exact ⟨_, rfl⟩
          · exact ⟨q, hq⟩
        · exact ⟨q, hq⟩
  obtain ⟨b, hb, rfl⟩ := hb
  refine hfold (.inl ⟨b, List.mem_mergeSort.mpr (List.mem_filter.mpr ⟨hb, ?_⟩), rfl⟩)
  rw [Bool.and_eq_true, notAfter_iff (by omega) (by omega), notAfter_iff (by omega) hhigh]
  exact ⟨hlow, hle⟩

/-- **The outer join finds** the time of every stored block: no time reads as the one of a missing block. -/
theorem changeOf_dated {blocks : List ConsensusBlock} (ht : Timely chain blocks) {e : ConsensusEvent}
    (hb : ∃ b ∈ blocks, b.height = e.block) : ∃ time, (changeOf blocks e).time = some time := by
  rcases hg : Keyed.get? ConsensusBlock.height e.block blocks with _ | b
  · obtain ⟨b, hb, hheight⟩ := hb
    exact absurd hheight (Keyed.get?_eq_none.mp hg b hb)
  · have htime := (ht b (Keyed.mem_of_get? hg)).1
    have h₁ := chain.time_nonneg b.height
    have h₂ := chain.time_lt b.height
    have hlow : Word.low b.time = chain.time b.height := by rw [htime, Word.low_of_lt (by omega) h₂]
    refine ⟨chain.time b.height, ?_⟩
    simp only [changeOf, hg, Option.map_some, Option.getD_some, hlow]
    rw [if_neg]
    unfold noTime
    omega

/-! ## Statements -/

theorem query_gives (f : Tables → α) : Gives (Holds t) (query f) (fun a d => a = f t ∧ Holds t d) Timed := by
  refine (query_ends f).gives fun d e _ he => ?_
  unfold query statement at he
  split at he <;> cases he
  trivial

/-- **A commit** fails over a statement, a stored amount or a missing checkpoint. -/
theorem commit_gives (b : Batch) (name : String) (height : Nat) :
    Gives (fun _ => True) (b.commit name height) (fun _ _ => True) Timed := by
  intro d _
  have hcases := commit_cases b name height d
  rcases hx : b.commit name height d with ⟨e | ⟨⟩, d'⟩
  · rw [hx] at hcases
    rcases hcases with ⟨-, h⟩ | ⟨-, ⟨-, _, _, h⟩ | ⟨-, ⟨-, h⟩ | ⟨-, h, -⟩⟩⟩ <;> cases h <;> trivial
  · trivial

theorem onStore_gives {x : Action Database α} {P : Database → Prop} {Q : α → Database → Prop} (h : Gives P x Q Timed) :
    Gives (fun s : Session γ => P s.database) (onStore x) (fun a s => Q a s.database) Timed := by
  have hw : Gives _ (onStore (γ := γ) x) _ _ := h.within (G := fun _ => True) (fun _ _ => rfl) fun _ _ _ => trivial
  exact (hw.pre fun s hs => ⟨hs, trivial⟩).post fun _ _ h => h.1

theorem storedHeight_gives (name : String) :
    Gives (Holds t) (storedHeight name) (fun _ => Holds t) Timed := by
  have hload : Gives (Holds t) (Store.checkpoints.load name) (fun _ d => Holds t d) Timed := by
    simp only [Store.checkpoints]
    exact (query_gives _).post fun _ _ h => h.2
  exact hload.bind fun _ => Gives.pure fun _ hd => hd

/-- **The times of covered heights** are all found. -/
theorem blockTimes_gives (hg : Grounded chain t) {heights : List Nat}
    (hheights : ∀ h ∈ heights, 1 ≤ h ∧ h ≤ t.reached blocksName) :
    Gives (Holds t) (blockTimes heights)
      (fun times _ => ∀ h ∈ heights, ∃ q, Keyed.get? Prod.fst h times = some q) Timed := by
  have hhalf := hg.half
  unfold blockTimes
  split
  · rename_i low high hlow hhigh
    obtain ⟨-, hlow⟩ := List.min?_eq_some_iff.mp hlow
    obtain ⟨hmem, hhigh⟩ := List.max?_eq_some_iff.mp hhigh
    refine (query_gives _).post ?_
    rintro times d ⟨rfl, -⟩ h hh
    obtain ⟨h₁, h₂⟩ := hheights h hh
    have hlast := (hheights high hmem).2
    exact timesBetween_complete hh (hg.covered h h₁ h₂) (hlow h hh) (hhigh h hh) (by omega)
  · rename_i hnone
    have hempty : heights = [] := by
      rcases hmin : heights.min? with _ | low
      · exact List.min?_eq_none_iff.mp hmin
      · rcases hmax : heights.max? with _ | high
        · exact List.max?_eq_none_iff.mp hmax
        · exact absurd hmax (hnone low high hmin)
    subst hempty
    exact Gives.pure fun _ _ _ hh => absurd hh List.not_mem_nil

/-- **The changes of covered heights** all come with their times. -/
theorem stakeChanges_gives (hg : Grounded chain t) (h₁ : 1 ≤ first) (hlast : last ≤ t.reached blocksName)
    (hle : first ≤ last) :
    Gives (Holds t) (stakeChanges first last) (fun changes _ => ∀ c ∈ changes, ∃ time, c.time = some time) Timed := by
  have hhalf := hg.half
  refine (query_gives _).post ?_
  rintro changes d ⟨rfl, -⟩ c hc
  obtain ⟨e, he, rfl⟩ := List.mem_map.mp hc
  obtain ⟨he, hwanted⟩ := List.mem_filter.mp (List.mem_mergeSort.mp he)
  have hblock := hg.events e he
  simp only [Bool.and_eq_true, notAfter_iff (show first < 0x80000000 by omega) hblock,
    notAfter_iff hblock (show last < 0x80000000 by omega)] at hwanted
  exact changeOf_dated hg.blocks (hg.covered e.block (by omega) (by omega))

/-! ## Pieces -/

/-- **A node that follows the chain**; its head is a half word, and its faults are not about block times. -/
structure Honest (chain : ConsensusChain) (feed : ConsensusFeed) : Prop where
  follows : feed.Follows chain
  head : ∀ h, feed.head = .ok h → h < 0x80000000
  headFault : ∀ e, feed.head = .error e → Timed e
  eventsFault : ∀ h e, feed.events h = .error e → Timed e

/-- The faults of a node at the end of a line are not about block times. -/
theorem node_timed (line : Rpc.Line) :
    (∀ e, (Rpc.ConsensusNode.feed line).head = .error e → Timed e) ∧
      ∀ h e, (Rpc.ConsensusNode.feed line).events h = .error e → Timed e := by
  have hask : ∀ {β : Type} (method : String) (params : Json) (reader : Json → Option β),
      Gives (fun _ => True) (Rpc.Line.ask method params reader) (fun _ _ => True) Timed := by
    intro β method params reader line _
    unfold Rpc.Line.ask
    rcases Rpc.Line.read method params reader line with ⟨e | a, line'⟩
    · exact (trivial : Timed (.rpc e.message))
    · trivial
  have hnumber : ∀ (name raw : String) (e : Fault), Rpc.ConsensusNode.number name raw = .error e → Timed e := by
    intro name raw e he
    unfold Rpc.ConsensusNode.number at he
    split at he <;> cases he
    trivial
  have hhead : Gives (fun _ => True) Rpc.ConsensusNode.head (fun _ _ => True) Timed :=
    (hask _ _ _).bind fun raw => (Gives.ofExcept (hnumber _ raw)).post fun _ _ _ => trivial
  exact ⟨fun e he => hhead.of_error trivial he, fun h e he => (hask _ _ _).of_error trivial he⟩

/-- **A node at the end of a line** follows the chain as soon as whatever it answers is what the chain has. -/
theorem honest_node {line : Rpc.Line} (hf : (Rpc.ConsensusNode.feed line).Follows chain)
    (hhead : ∀ h, (Rpc.ConsensusNode.feed line).head = .ok h → h < 0x80000000) :
    Honest chain (Rpc.ConsensusNode.feed line) :=
  ⟨hf, hhead, (node_timed line).1, (node_timed line).2⟩

/-- The fault of a gathering is that of a height. -/
theorem gather_timed {fetch : Nat → Except Fault α} (hf : ∀ h e, fetch h = .error e → Timed e) {e : Fault}
    (h : Feed.gather first last fetch = .error e) : Timed e := by
  have hfrom : ∀ {n height : Nat} {acc : List α}, Feed.gatherFrom fetch n height acc = .error e → Timed e := by
    intro n
    induction n with
    | zero => exact fun h => nomatch h
    | succ n ih =>
      intro height acc h
      unfold Feed.gatherFrom at h
      rcases ha : fetch height with e' | a <;> rw [ha] at h
      · cases h
        exact hf height e ha
      · exact ih h
  exact hfrom h

theorem successor_timed {height : Nat} {e : Fault} (h : Uptime.successor height = .error e) : Timed e := by
  unfold Uptime.successor at h
  split at h <;> cases h
  trivial

theorem deltasOf_timed {lists : List (List EventRecord)} {e : Fault} (h : deltasOf first lists = .error e) :
    Timed e := by
  have hadd : ∀ (lists : List (List EventRecord)) (height : Nat),
      Gives (fun _ => True) (addHeights height lists) (fun _ _ => True) Timed := by
    intro lists
    induction lists with
    | nil => exact fun _ => Gives.pure fun _ _ => trivial
    | cons events rest ih => exact fun height => (addEvents_gives height events).bind fun _ => ih (height + 1)
  unfold deltasOf at h
  rcases hx : addHeights first lists [] with ⟨e' | ⟨⟩, s⟩ <;> rw [hx] at h <;> cases h
  exact (hadd lists first).of_error trivial (congrArg Prod.fst hx)

/-- The entries of some heights are at those heights. -/
theorem mem_entries {p : Nat × Int} : ∀ {lists : List (List EventRecord)} {height : Nat},
    p ∈ entries height lists → height ≤ p.1 ∧ p.1 < height + lists.length
  | [], _, hp => nomatch hp
  | events :: rest, height, hp => by
    rw [entries] at hp
    rcases List.mem_append.mp hp with hp | hp
    · unfold entry at hp
      split at hp
      · rw [List.mem_singleton.mp hp]
        simp
      · cases hp
    · have := mem_entries hp
      simp only [List.length_cons]
      omega

/-- **A piece of the total** within its target misses no block time. -/
theorem total_gives (hg : Grounded chain t) (hf : Honest chain feed) (h₁ : 1 ≤ first)
    (hlast : last ≤ t.reached blocksName) :
    Gives (At t l) ((total feed genesis).cover first last) (fun _ (_ : Session γ) => True) Timed := by
  have hstored : Gives (At t l) (onStore (storedHeight totalName)) (fun _ (s : Session γ) => Holds t s.database) Timed :=
    (onStore_gives (storedHeight_gives totalName)).pre fun _ h => h.1
  refine hstored.bind fun done => ?_
  refine (Gives.ofExcept fun e he => successor_timed he).bind fun next => Gives.assuming fun _ => ?_
  simp only
  split
  · exact Gives.pure fun _ _ => trivial
  refine (Gives.ofExcept fun e he => gather_timed hf.eventsFault he).bind fun lists => Gives.assuming fun hlists => ?_
  refine (Gives.ofExcept fun e he => deltasOf_timed he).bind fun deltas => Gives.assuming fun hdeltas => ?_
  have hlength : lists.length = last + 1 - max first next := by
    have := congrArg List.length (Feed.gather_map (f := fun a => a) hf.follows.events hlists)
    simpa using this
  have hheights : ∀ h ∈ deltas.heights, 1 ≤ h ∧ h ≤ t.reached blocksName := by
    intro h hh
    obtain ⟨p, hp, rfl⟩ := List.mem_map.mp hh
    rw [(deltasOf_eq hdeltas).1] at hp
    have := mem_entries hp
    omega
  refine (onStore_gives (blockTimes_gives hg hheights)).bind fun times => ?_
  intro s htimes
  have hdated : Dated deltas times := fun p hp => htimes p.1 (List.mem_map_of_mem hp)
  refine (Gives.state.bind fun p => ?_ : Gives (fun _ => True) _ _ Timed) s trivial
  refine (Gives.ofExcept fun e he => applyOnto_timed hdated he).bind fun applied => Gives.assuming fun _ => ?_
  refine ((onStore_gives (commit_gives (.totals applied.2) totalName last)).pre fun _ _ => trivial).bind fun _ => ?_
  exact Gives.update fun _ _ => trivial

/-- **A piece of the history** within its target misses no block time. -/
theorem history_gives (hg : Grounded chain t) (h₁ : 1 ≤ first) (hlast : last ≤ t.reached blocksName) :
    Gives (At t l) ((history genesis).cover first last) (fun _ (_ : Session γ) => True) Timed := by
  have hlatest : Gives (At t l) (onStore latestHistory) (fun _ (s : Session γ) => Holds t s.database) Timed :=
    (onStore_gives ((query_gives _).post fun _ _ h => h.2)).pre fun _ h => h.1
  refine hlatest.bind fun latest? => ?_
  refine (Gives.ofExcept fun e he => successor_timed he).bind fun next => Gives.assuming fun _ => ?_
  have hrest : ∀ changes : List Change, Gives (fun _ : Session γ => ∀ c ∈ changes, ∃ time, c.time = some time)
      (commitChanges (latest?.getD genesis.historyPoint).amount last changes) (fun _ _ => True) Timed := by
    intro changes s hall
    obtain ⟨hfault, hdated⟩ := ofChanges_timed hall
    refine ((Gives.ofExcept hfault).bind fun found => Gives.assuming fun hcollected => ?_ :
      Gives (fun _ => True) _ _ Timed) s trivial
    have hentries := hdated found.1 found.2 hcollected
    refine (Gives.ofExcept fun e he => applyByBlockOnto_timed hentries he).bind fun applied => ?_
    exact (onStore_gives (commit_gives (.history applied.2) historyName last)).pre fun _ _ => trivial
  dsimp only
  split
  · rename_i hle
    exact (onStore_gives (stakeChanges_gives hg (by omega) hlast hle)).bind hrest
  · exact (Gives.pure fun _ _ _ hc => nomatch hc).bind hrest

/-! ## What the loops rely on -/

/-- **Which ranges may be worked off**: those of the blocks leave no gap, and those of the total and its history end where
the stored blocks do. -/
structure Fits (name : String) (t : Tables) (first target : Nat) : Prop where
  half : target < 0x80000000
  pos : 1 ≤ first
  next : name = blocksName → first ≤ t.reached blocksName + 1
  covered : name = totalName ∨ name = historyName → target ≤ t.reached blocksName

/-- The checkpoint of the blocks does not move back. -/
def Later (t u : Tables) : Prop := t.reached blocksName ≤ u.reached blocksName

/-- What the four loops rely on. -/
def pact (chain : ConsensusChain) : Pact (Session γ) where
  inv s := Grounded chain s.database.tables
  later s s' := Later s.database.tables s'.database.tables
  fits name s first target := Fits name s.database.tables first target
  refl _ := le_rfl
  trans h h' := le_trans h h'
  lasting hlater h := ⟨h.half, h.pos, fun hn => (h.next hn).trans (Nat.succ_le_succ hlater),
    fun hn => (h.covered hn).trans hlater⟩

/-- Tables with the same blocks, in which the events are at half words. -/
structure Aside (t u : Tables) : Prop where
  blocks : u.consensusBlocks = t.consensusBlocks
  reached : u.reached blocksName = t.reached blocksName
  events : (∀ e ∈ t.consensusEvents, e.block < 0x80000000) → ∀ e ∈ u.consensusEvents, e.block < 0x80000000

protected theorem Aside.refl (t : Tables) : Aside t t := ⟨rfl, rfl, id⟩

theorem Grounded.aside (hg : Grounded chain t) (h : Aside t u) : Grounded chain u ∧ Later t u := by
  refine ⟨⟨?_, ?_, ?_, h.events hg.events⟩, h.reached.ge⟩
  · rw [h.reached]
    exact hg.half
  · rw [h.blocks]
    exact hg.blocks
  · rw [h.blocks, h.reached]
    exact hg.covered

/-! ## Batches -/

/-- **A batch of blocks** that leaves no gap stores the heights up to its end. -/
theorem blocks_cover (hg : Grounded chain t) (hf : feed.Follows chain) (hfits : Fits blocksName t first last) :
    Ends (At t l) ((blocks feed).cover first last)
      (fun _ (s : Session γ) => Grounded chain s.database.tables ∧ Later t s.database.tables ∧
        last ≤ s.database.tables.reached blocksName) (At t l) := by
  have hhalf := hg.half
  have hlast := hfits.half
  have hfirst := hfits.next rfl
  refine Ends.ofExcept.bind fun rows => Ends.assuming fun hrows => ?_
  have hcommit : Ends (Holds t) (Commit.consensusBlocks blocksName rows last) _ _ :=
    batch_found_ends_of (each_put_ends ConsensusBlock.height (fun t => t.consensusBlocks)
      (fun rows t => { t with consensusBlocks := rows }) (fun _ _ => rfl) (fun _ _ _ => rfl) (fun _ => rfl) rows)
  refine (onStore_ends hcommit).post ?_
  rintro _ s ⟨⟨hc, ht⟩, -⟩
  have hreached : (Tables.advance blocksName last
      { t with consensusBlocks := Keyed.putAll ConsensusBlock.height rows t.consensusBlocks }).reached blocksName =
        max (t.reached blocksName) last :=
    reached_advance rfl hc (by omega) (by omega)
  rw [show s.database.tables = _ from ht]
  refine ⟨⟨?_, (timely_gather hf hlast hrows).putAll hg.blocks, fun h h₁ h₂ => ?_, hg.events⟩, ?_, ?_⟩
  · rw [hreached]
    omega
  · refine Keyed.exists_key_putAll ?_
    rw [hreached] at h₂
    by_cases hold : h ≤ t.reached blocksName
    · exact .inr (hg.covered h h₁ hold)
    · have hmap := Feed.gather_map (f := ConsensusBlock.height) (g := id) (fun h b hb => (hf.block h b hb).1) hrows
      have hmem : h ∈ rows.map ConsensusBlock.height := by
        rw [hmap, List.map_id]
        exact List.mem_range'_1.mpr ⟨by omega, by omega⟩
      exact .inl (List.mem_map.mp hmem)
  · rw [Later, hreached]
    exact le_max_left _ _
  · rw [hreached]
    exact le_max_right _ _

/-- A batch of events writes rows of its heights. -/
theorem events_cover (hf : feed.Follows chain) (hlast : last < 0x80000000) :
    Ends (At t l) ((events feed).cover first last) (fun _ (s : Session γ) => Aside t s.database.tables) (At t l) := by
  refine Ends.ofExcept.bind fun lists => Ends.assuming fun hlists => ?_
  refine Ends.ofExcept.bind fun rows => Ends.assuming fun hrows => ?_
  have heq : lists = (List.range' first (last + 1 - first)).map chain.events := by
    simpa using Feed.gather_map (f := fun a => a) hf.events hlists
  subst heq
  refine (onStore_ends (consensusEvents_ends eventsName rows last)).post ?_
  rintro _ s ⟨⟨-, ht⟩, -⟩
  rw [show s.database.tables = _ from ht]
  refine ⟨rfl, reached_advance_of_ne (by decide) last, fun hold e he => ?_⟩
  rcases Keyed.mem_putAll he with he | he
  · obtain ⟨h, hge, hlt, hrow⟩ := ((mem_rowsOfHeights hrows).2 e).mp he
    have := ConsensusChain.rows_block hrow
    omega
  · exact hold e he

theorem total_cover :
    Ends (At t l) ((total feed genesis).cover first last) (fun _ (s : Session γ) => Aside t s.database.tables)
      (At t l) := by
  refine total_effect.post ?_
  rintro _ s (ht | ⟨points, ht⟩)
  · rw [ht]
    exact .refl t
  · rw [ht]
    exact ⟨rfl, reached_advance_of_ne (by decide) last, id⟩

theorem history_cover :
    Ends (At t l) ((history genesis).cover first last) (fun _ (s : Session γ) => Aside t s.database.tables)
      (At t l) := by
  have hrest : ∀ (latest : HistoryPoint) (changes : List Change), Ends (At t l)
      (commitChanges latest.amount last changes) (fun _ (s : Session γ) => Aside t s.database.tables) (At t l) := by
    intro latest changes
    refine Ends.ofExcept.bind fun found => Ends.assuming fun _ => ?_
    refine Ends.ofExcept.bind fun applied => Ends.assuming fun _ => ?_
    refine (onStore_ends (history_ends historyName applied.2 last)).post ?_
    rintro _ s ⟨⟨-, ht⟩, -⟩
    rw [show s.database.tables = _ from ht]
    exact ⟨rfl, reached_advance_of_ne (by decide) last, id⟩
  refine (onStore_reads (query_ends _)).bind fun latest? => Ends.assuming fun _ => ?_
  refine Ends.ofExcept.bind fun next => Ends.assuming fun _ => ?_
  dsimp only
  split
  · exact (onStore_reads (query_ends _)).bind fun changes => Ends.assuming fun _ => hrest _ changes
  · exact (Ends.pure fun _ h => h).bind fun changes => hrest _ changes

/-! ## The indexers keep the pact -/

/-- Whatever changes no table. -/
theorem Grounded.keep {s s' : Session γ} (hg : Grounded chain s.database.tables)
    (h : At s.database.tables s.ledger s') : (pact chain).inv s' ∧ (pact chain).later s s' := by
  have haside : Aside s.database.tables s'.database.tables := by
    rw [h.1]
    exact .refl _
  exact hg.aside haside

/-- **An indexer keeps the pact** if its targets are half words, for the total and its history no higher than the stored
blocks, and its pieces keep the tables grounded. -/
theorem kept_of {ix : Indexer (Session γ)} (schedule : Schedule) (cancelled : Session γ → Bool)
    (htarget : ∀ t l, Grounded chain t → Ends (At t l) ix.target
      (fun h s => (h < 0x80000000 ∧ (ix.name = totalName ∨ ix.name = historyName → h ≤ t.reached blocksName)) ∧ At t l s)
      (At t l))
    (hcover : ∀ t l first last, Grounded chain t → Fits ix.name t first last → Ends (At t l) (ix.cover first last)
      (fun _ s => Grounded chain s.database.tables ∧ Later t s.database.tables ∧
        (ix.name = blocksName → last ≤ s.database.tables.reached blocksName)) (At t l)) :
    (pact chain).Kept (loopUntil schedule cancelled) ix where
  look s hg := by
    have hlook : Ends (At s.database.tables s.ledger) ((loopUntil schedule cancelled).look ix) _ _ :=
      look_ends (htarget _ _ hg)
    refine hlook.mono (fun s' h => h ▸ ⟨rfl, rfl⟩) (fun found s' ⟨⟨hc, hh⟩, hat⟩ => ⟨?_, hg.keep hat⟩) fun _ => hg.keep
    change Fits ix.name s'.database.tables _ _
    rw [hat.1]
    refine ⟨hh.1, Nat.succ_pos _, fun hn => ?_, hh.2⟩
    rw [hn] at hc
    rw [hc hg.half]
  cover s first last target hg hfits _ hle := by
    have hpiece : Fits ix.name s.database.tables first last :=
      ⟨hle.trans_lt hfits.half, hfits.pos, hfits.next, fun hn => hle.trans (hfits.covered hn)⟩
    refine (hcover _ _ first last hg hpiece).mono (fun s' h => h ▸ ⟨rfl, rfl⟩) ?_ fun _ => hg.keep
    rintro _ s' ⟨hg', hlater, hreached⟩
    exact ⟨⟨hfits.half, Nat.succ_pos last, fun hn => Nat.succ_le_succ (hreached hn),
      fun hn => (hfits.covered hn).trans hlater⟩, hg', hlater⟩
  count c s hg := ⟨hg, le_rfl⟩

variable (schedule : Schedule) (cancelled : Session γ → Bool)

theorem blocks_kept (hf : Honest chain feed) : (pact chain).Kept (loopUntil schedule cancelled) (blocks feed) := by
  refine kept_of schedule cancelled (fun t l hg => ?_) fun t l first last hg hfits => ?_
  · refine Ends.ofExcept.post fun h s hh => ⟨⟨hf.head h hh.1, fun hn => ?_⟩, hh.2⟩
    exact absurd hn (show ¬ (blocksName = totalName ∨ blocksName = historyName) by decide)
  · exact (blocks_cover hg hf.follows hfits).post fun _ s h => ⟨h.1, h.2.1, fun _ => h.2.2⟩

theorem events_kept (hf : Honest chain feed) : (pact chain).Kept (loopUntil schedule cancelled) (events feed) := by
  refine kept_of schedule cancelled (fun t l hg => ?_) fun t l first last hg hfits => ?_
  · refine Ends.ofExcept.post fun h s hh => ⟨⟨hf.head h hh.1, fun hn => ?_⟩, hh.2⟩
    exact absurd hn (show ¬ (eventsName = totalName ∨ eventsName = historyName) by decide)
  · refine (events_cover hf.follows hfits.half).post fun _ s h => ⟨(hg.aside h).1, (hg.aside h).2, fun hn => ?_⟩
    exact absurd hn (show eventsName ≠ blocksName by decide)

theorem total_kept (hf : Honest chain feed) :
    (pact chain).Kept (loopUntil schedule cancelled) (total feed genesis) := by
  refine kept_of schedule cancelled (fun t l hg => ?_) fun t l first last hg hfits => ?_
  · refine Ends.ofExcept.bind fun head => Ends.assuming fun hh => ?_
    refine (onStore_reads (storedHeight_reached hg.half)).bind fun stored => Ends.assuming ?_
    rintro rfl
    exact Ends.pure fun s h => ⟨⟨(min_le_left _ _).trans_lt (hf.head head hh), fun _ => min_le_right _ _⟩, h⟩
  · refine total_cover.post fun _ s h => ⟨(hg.aside h).1, (hg.aside h).2, fun hn => ?_⟩
    exact absurd hn (show totalName ≠ blocksName by decide)

theorem history_kept : (pact chain).Kept (loopUntil schedule cancelled) (history genesis) := by
  refine kept_of schedule cancelled (fun t l hg => ?_) fun t l first last hg hfits => ?_
  · refine (onStore_reads (storedHeight_reached hg.half)).bind fun blocks => Ends.assuming ?_
    rintro rfl
    refine (storedHeight_keeps eventsName).bind fun events => ?_
    exact Ends.pure fun s h => ⟨⟨(min_le_left _ _).trans_lt hg.half, fun _ => min_le_left _ _⟩, h⟩
  · refine history_cover.post fun _ s h => ⟨(hg.aside h).1, (hg.aside h).2, fun hn => ?_⟩
    exact absurd hn (show historyName ≠ blocksName by decide)

/-! ## Faults of the total and its history -/

/-- A look that misses no block time, if the target misses none. -/
theorem look_gives {ix : Indexer (Session γ)}
    (htarget : ∀ t, Gives (fun s => Holds t s.database) ix.target (fun _ _ => True) Timed) :
    Gives (fun _ => True) ((loopUntil schedule cancelled).look ix) (fun _ _ => True) Timed := by
  intro s _
  have hload : Gives (Holds s.database.tables) (Store.checkpoints.load ix.name)
      (fun _ => Holds s.database.tables) Timed := by
    simp only [Store.checkpoints]
    exact (query_gives _).post fun _ _ h => h.2
  have hcheckpoint : Gives (fun s' => Holds s.database.tables s'.database) ((loopUntil schedule cancelled).checkpoint ix)
      (fun _ s' => Holds s.database.tables s'.database) Timed := by
    refine Gives.bind (x := (loopUntil schedule cancelled).checkpoints.load ix.name) (onStore_gives hload) fun c => ?_
    split
    · exact Gives.pure fun _ h => h
    · exact Gives.fail trivial
  refine (hcheckpoint.bind fun c => (htarget _).bind fun h => ?_) s rfl
  exact Gives.pure fun _ _ => trivial

theorem total_target_gives (hf : Honest chain feed) :
    Gives (fun s : Session γ => Holds t s.database) (total feed genesis).target (fun _ _ => True) Timed := by
  refine (Gives.ofExcept hf.headFault).bind fun head => Gives.assuming fun _ => ?_
  exact (onStore_gives (storedHeight_gives blocksName)).bind fun stored => Gives.pure fun _ _ => trivial

theorem history_target_gives :
    Gives (fun s : Session γ => Holds t s.database) (history genesis).target (fun _ _ => True) Timed := by
  refine (onStore_gives (storedHeight_gives blocksName)).bind fun blocks => ?_
  exact (onStore_gives (storedHeight_gives eventsName)).bind fun events => Gives.pure fun _ _ => trivial

/-! ## Runs -/

/-- The loops of the blocks, the events, the total and its history. -/
def fleet (feed : ConsensusFeed) (genesis : Genesis) : Fleet (Session γ) :=
  ⟨loopUntil schedule cancelled, [blocks feed, events feed, total feed genesis, history genesis]⟩

/-- The fleets whose nodes follow the chain. -/
def Follows (chain : ConsensusChain) (genesis : Genesis) (f : Fleet (Session γ)) : Prop :=
  ∃ feed schedule cancelled, Honest chain feed ∧ f = fleet schedule cancelled feed genesis

/-- **What happens besides**: the indexers are started, whatever comes of it, or something else leaves the blocks and
their checkpoint alone. -/
inductive Elsewhere (chain : ConsensusChain) (genesis : Genesis) (s : Session γ) : Session γ → Prop
  | init {f : Fleet (Session γ)} : Follows chain genesis f → Elsewhere chain genesis s (f.init s).2
  | other {s' : Session γ} : Aside s.database.tables s'.database.tables → Elsewhere chain genesis s s'

/-- **The states of any run** of the four loops from an empty database. -/
def Reaches (chain : ConsensusChain) (genesis : Genesis) : List Position × Session γ → Prop :=
  Runs (Follows chain genesis) (Elsewhere chain genesis) fun now =>
    now.2.database.tables = {} ∧ ∀ p ∈ now.1, p = .waiting

/-- **Starting the indexers** leaves the blocks and their checkpoint alone. -/
theorem init_aside (s : Session γ) :
    Aside s.database.tables ((fleet schedule cancelled feed genesis).init s).2.database.tables := by
  have hinit : ∀ ix ∈ (fleet schedule cancelled feed genesis).indexers, Keeps (Aside s.database.tables) ix.init := by
    intro ix hix
    simp only [fleet, List.mem_cons, List.not_mem_nil, or_false] at hix
    rcases hix with rfl | rfl | rfl | rfl
    · exact Ends.pure fun _ h => h
    · exact Ends.pure fun _ h => h
    · have hseed : Keeps (Aside s.database.tables) (onStore (γ := γ) (seedTotal genesis.point)) :=
        .write fun u hu => ⟨hu.blocks, hu.reached, hu.events⟩
      have hlatest : Keeps (Aside s.database.tables) (onStore (γ := γ) latestTotal) := .query _
      exact hseed.bind fun _ => hlatest.bind fun _ => Ends.update fun _ h => h
    · exact .write (f := fun u => { u with history := placeHistory genesis.historyPoint u.history })
        fun u hu => ⟨hu.blocks, hu.reached, hu.events⟩
  have hkeeps : Keeps (Aside s.database.tables) (fleet schedule cancelled feed genesis).init := by
    refine Keeps.init (fun name => ?_) hinit
    exact .setup fun u hu => ⟨hu.blocks, (reached_setup name blocksName).trans hu.reached, hu.events⟩
  exact hkeeps.snd (.refl _)

/-- **In any run the pact stands.** -/
theorem Reaches.stands {now : List Position × Session γ} (h : Reaches chain genesis now) :
    (pact chain).Stands [blocksName, eventsName, totalName, historyName] now := by
  refine Runs.stands h (fun now hnow => ?_) ?_ ?_
  · obtain ⟨positions, s⟩ := now
    obtain ⟨ht, hwaiting⟩ := hnow
    refine Pact.Stands.of_waiting ?_ hwaiting
    change Grounded chain s.database.tables
    rw [show s.database.tables = {} from ht]
    refine ⟨by decide, fun _ hb => (nomatch hb), fun h h₁ h₂ => ?_, fun _ he => nomatch he⟩
    exact absurd (h₁.trans h₂) (show ¬ 1 ≤ 0 by decide)
  · rintro f ⟨feed, schedule, cancelled, hf, rfl⟩
    refine ⟨rfl, fun ix hix => ?_⟩
    simp only [fleet, List.mem_cons, List.not_mem_nil, or_false] at hix
    rcases hix with rfl | rfl | rfl | rfl
    · exact blocks_kept schedule cancelled hf
    · exact events_kept schedule cancelled hf
    · exact total_kept schedule cancelled hf
    · exact history_kept schedule cancelled
  · rintro s s' (@⟨f, feed, schedule, cancelled, -, rfl⟩ | haside) hg
    · exact hg.aside (init_aside schedule cancelled s)
    · exact hg.aside haside

variable {now : List Position × Session γ} {f : Fleet (Session γ)} {ix : Indexer (Session γ)} {e : Fault}

/-- **The loops of the total and its history keep the pact**, and neither a look of theirs nor a range within the pact
ends with a missing block time. -/
theorem kept_timed (hf : Follows chain genesis f) (hix : ix ∈ f.indexers)
    (hname : ix.name = totalName ∨ ix.name = historyName) :
    (pact chain).Kept f.loop ix ∧ Gives (fun _ => True) (f.loop.look ix) (fun _ _ => True) Timed ∧
      ∀ s first last target e, (pact chain).inv s → (pact chain).fits ix.name s first target → first ≤ last →
        last ≤ target → (ix.cover first last s).1 = .error e → Timed e := by
  obtain ⟨feed, schedule, cancelled, hf, rfl⟩ := hf
  obtain ⟨hkept, hlook, hcover⟩ : (pact chain).Kept (loopUntil schedule cancelled) ix ∧
      Gives (fun _ => True) ((loopUntil schedule cancelled).look ix) (fun _ _ => True) Timed ∧
      ∀ t l first last, Grounded chain t → 1 ≤ first → last ≤ t.reached blocksName →
        Gives (At t l) (ix.cover first last) (fun _ (_ : Session γ) => True) Timed := by
    simp only [fleet, List.mem_cons, List.not_mem_nil, or_false] at hix
    rcases hix with rfl | rfl | rfl | rfl
    · exact absurd hname (show ¬ (blocksName = totalName ∨ blocksName = historyName) by decide)
    · exact absurd hname (show ¬ (eventsName = totalName ∨ eventsName = historyName) by decide)
    · exact ⟨total_kept schedule cancelled hf, look_gives schedule cancelled fun t => total_target_gives hf,
        fun t l first last hg => total_gives hg hf⟩
    · exact ⟨history_kept schedule cancelled, look_gives schedule cancelled fun t => history_target_gives,
        fun t l first last hg => history_gives hg⟩
  refine ⟨hkept, hlook, fun s first last target e hg hfits _ hle he => ?_⟩
  have hlast : last ≤ s.database.tables.reached blocksName := hle.trans (hfits.covered hname)
  exact (hcover _ _ first last hg hfits.pos hlast).of_error (s := s) ⟨rfl, rfl⟩ he

/-- **A piece that is due** misses no block time. -/
theorem Reaches.piece_timed (h : Reaches chain genesis now) (hf : Follows chain genesis f) (hix : ix ∈ f.indexers)
    (hname : ix.name = totalName ∨ ix.name = historyName) {turn first target start : Nat}
    (hturn : f.indexers[turn]? = some ix) (hpos : now.1[turn]? = some (.working first target start))
    (hle : start ≤ target)
    (he : (ix.cover start (pieceEnd start target f.loop.schedule.batch) now.2).1 = .error e) : Timed e := by
  obtain ⟨-, -, hpiece⟩ := kept_timed hf hix hname
  have hturn' : [blocksName, eventsName, totalName, historyName][turn]? = some ix.name := by
    obtain ⟨feed, schedule, cancelled, -, rfl⟩ := hf
    have := congrArg (Option.map Indexer.name) hturn
    rwa [← List.getElem?_map] at this
  have hstands := h.stands
  have hfits := hstands.fits turn ix.name _ hturn' hpos
  exact hpiece _ _ _ target _ hstands.inv hfits (le_pieceEnd hle) (pieceEnd_le _ _ _) he

/-- **A whole tick** misses no block time. -/
theorem Reaches.tick_timed (h : Reaches chain genesis now) (hf : Follows chain genesis f) (hix : ix ∈ f.indexers)
    (hname : ix.name = totalName ∨ ix.name = historyName) (he : (f.loop.tick ix now.2).1 = .error e) : Timed e := by
  obtain ⟨hkept, hlook, hpiece⟩ := kept_timed hf hix hname
  exact hkept.tick_fault (fun s e _ he => hlook.of_error (s := s) trivial he) hpiece h.stands.inv he

/-- **No block time is ever missing.** In any state of any run from an empty database, no piece that the loop of the total
or of its history is about to work off misses a block time, whatever the other loops have done since the piece was found,
and neither does a whole tick of it. -/
theorem block_times_found (h : Reaches chain genesis now) (hf : Follows chain genesis f) (hix : ix ∈ f.indexers)
    (hname : ix.name = totalName ∨ ix.name = historyName) (k : Nat) :
    (∀ turn first target start : Nat, f.indexers[turn]? = some ix → now.1[turn]? = some (.working first target start) →
      start ≤ target →
      (ix.cover start (pieceEnd start target f.loop.schedule.batch) now.2).1 ≠ .error (.missingBlockTime k)) ∧
    (f.loop.tick ix now.2).1 ≠ .error (.missingBlockTime k) := by
  -- a missing block time is the one fault that is not timed
  refine ⟨fun turn first target start hturn hpos hle he => ?_, fun he => ?_⟩
  · exact h.piece_timed hf hix hname hturn hpos hle he
  · exact h.tick_timed hf hix hname he

/-! ### A piece that waited -/

/-- A delegation of 3 at each height. -/
def lateChain : ConsensusChain where
  events _ := [⟨"delegate_success", [⟨"amount", "3"⟩, ⟨"delegator_addr", "0xaa"⟩, ⟨"sender_address", "AA"⟩]⟩]
  time _ := 100
  time_nonneg := ConsensusChain.still_nonneg
  time_lt := ConsensusChain.still_lt

/-- A node of this chain up to height 2, which may not have some of the blocks yet. -/
def lateFeed (missing : Nat → Bool) : ConsensusFeed where
  head := .ok 2
  block h := if missing h then .error (.rpc "later") else .ok ⟨h, "", "", 100⟩
  events h := .ok (lateChain.events h)
  commit _ := .ok []
  validators _ _ _ := .ok ⟨[], 0⟩

/-- The loops of this node, which work off one height at a time. -/
def lateFleet (missing : Nat → Bool) : Fleet (Session Unit) :=
  fleet ⟨0, 1, 1⟩ (·.cancelled) (lateFeed missing) ⟨10, 50, 0⟩

/-- A session on an empty database. -/
def lateStart : Session Unit := { database := {}, cache := (), ledger := ⟨0⟩ }

/-- Without the block, the first piece of the total does miss its time. -/
example : ((total (lateFeed fun _ => false) ⟨10, 50, 0⟩).cover 1 1 lateStart).1 = .error (.missingBlockTime 1) := by cbv

/-- Start-up; the block of height 1 is stored and the total finds its target, then the block of height 2 cannot be had. -/
def lateRun : List Position × Session Unit :=
  (lateFleet (· = 2)).run [0] ((lateFleet fun _ => false).run [0, 0, 2]
    (List.replicate 4 .waiting, ((lateFleet fun _ => false).init lateStart).2))

theorem late_follows (missing : Nat → Bool) : Follows lateChain ⟨10, 50, 0⟩ (lateFleet missing) := by
  refine ⟨lateFeed missing, _, _, ⟨⟨?_, fun h b hb => ?_⟩, ?_, ?_, ?_⟩, rfl⟩
  · exact fun _ _ hl => (Except.ok.inj hl).symm
  · simp only [lateFeed] at hb
    split at hb <;> cases hb
    exact ⟨rfl, rfl⟩
  · rintro _ ⟨⟩
    decide
  · exact fun _ he => nomatch he
  · exact fun _ _ he => nomatch he

theorem lateRun_reaches : Reaches lateChain ⟨10, 50, 0⟩ lateRun := by
  have hstart : Reaches lateChain ⟨10, 50, 0⟩ (List.replicate 4 .waiting, lateStart) :=
    .start ⟨rfl, fun _ hp => List.eq_of_mem_replicate hp⟩
  have hinit := hstart.move (.init (late_follows fun _ => false))
  exact (hinit.turns (late_follows fun _ => false) [0, 0, 2]).turns (late_follows _) [0]

/-- The piece of the total that waited ends well, and its whole tick too. -/
theorem lateRun_found :
    lateRun.1[2]? = some (.working 1 1 1) ∧
      (∀ k, ((total (lateFeed fun _ => false) ⟨10, 50, 0⟩).cover 1 1 lateRun.2).1 ≠ .error (.missingBlockTime k)) ∧
      ∀ k, ((lateFleet fun _ => false).loop.tick (total (lateFeed fun _ => false) ⟨10, 50, 0⟩) lateRun.2).1 ≠
        .error (.missingBlockTime k) := by
  have hposition : lateRun.1[2]? = some (.working 1 1 1) := by cbv
  have hmem : total (lateFeed fun _ => false) ⟨10, 50, 0⟩ ∈ (lateFleet fun _ => false).indexers :=
    List.mem_of_getElem? (i := 2) rfl
  have hfound := block_times_found lateRun_reaches (late_follows fun _ => false) hmem (.inl rfl)
  exact ⟨hposition, fun k => (hfound k).1 2 1 1 1 rfl hposition le_rfl, fun k => (hfound k).2⟩

/-! ### The loops of a node -/

/-- **At a node on a line** no block time is missing either: if whatever the node answers is what the chain has, neither
a piece that is due nor a whole tick of the loops that ask it ends with one, however its line fails. -/
theorem node_times_found (h : Reaches chain genesis now) {line : Rpc.Line}
    (hnode : (Rpc.ConsensusNode.feed line).Follows chain)
    (hhead : ∀ h, (Rpc.ConsensusNode.feed line).head = .ok h → h < 0x80000000)
    (hix : ix ∈ (fleet schedule cancelled (Rpc.ConsensusNode.feed line) genesis).indexers)
    (hname : ix.name = totalName ∨ ix.name = historyName) :
    (∀ turn first target start : Nat,
      (fleet schedule cancelled (Rpc.ConsensusNode.feed line) genesis).indexers[turn]? = some ix →
      now.1[turn]? = some (.working first target start) → start ≤ target →
      ∀ e, (ix.cover start (pieceEnd start target schedule.batch) now.2).1 = .error e → Timed e) ∧
    ∀ e, ((loopUntil schedule cancelled).tick ix now.2).1 = .error e → Timed e := by
  have hf : Follows chain genesis (fleet schedule cancelled (Rpc.ConsensusNode.feed line) genesis) :=
    ⟨_, _, _, honest_node hnode hhead, rfl⟩
  refine ⟨fun turn first target start hturn hpos hle e he => ?_, fun e he => ?_⟩
  · exact h.piece_timed hf hix hname hturn hpos hle he
  · exact h.tick_timed hf hix hname he

end StakeTrail.Indexing.BlockTimes
