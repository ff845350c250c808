import Mathlib
import StakeTrail.Indexing.Fleet
import StakeTrail.Proofs.Indexing.Sessions
import StakeTrail.Proofs.Stake.Series

/-!
# The running total is exact

`Settled` couples the three places in which the running total lives: the checkpoint, the total in memory and the table
of points. Each batch either leaves a settled state alone or moves it to the end of its range (`total_ends`); heights
that the checkpoint covers are passed over, so it does not matter how often they are asked for.

* `Reaches` are the states of any run: start-up on an empty database, batches of blocks and of the total, restarts.
* `Kept` says that a restart at a checkpoint finds the total again, and `Reaches.settled` that a run whose restarts all
  do is settled.
* **The main statement** (`total_exactly_once`) reads this off for a run without restarts.
-/

namespace StakeTrail.Indexing

open StakeTrail.Action Store Database Session Consensus Stake

variable {γ : Type} {chain : ConsensusChain} {genesis : Genesis} {base : Int} {C : Nat} {t : Tables} {l : Ledger}
  {feed : ConsensusFeed} {first last : Nat}

/-- The blocks in a table have the times of the chain. -/
def Timely (chain : ConsensusChain) (blocks : List ConsensusBlock) : Prop :=
  ∀ b ∈ blocks, b.time = chain.time b.height ∧ b.height < 0x80000000

/-- **The total stands at `C`**: checkpoint, total and points agree on the heights up to `C`. -/
structure Settled (chain : ConsensusChain) (genesis : Genesis) (base : Int) (C : Nat) (t : Tables) (l : Ledger) :
    Prop where
  blockCheckpoint : ∃ c, t.checkpoint? blocksName = some c
  checkpoint : t.checkpoint? totalName = some ⟨totalName, C⟩
  half : C < 0x80000000
  total : l.total = chain.totalAt base C
  points : t.totals = chain.series genesis base C
  blocks : Timely chain t.consensusBlocks
  readable : ∀ h ∈ Finset.Icc 1 C, ∀ e ∈ chain.events h, Readable e

/-- The total of a session stands at some checkpoint. -/
def Stands (chain : ConsensusChain) (genesis : Genesis) (base : Int) (s : Session γ) : Prop :=
  ∃ C, Settled chain genesis base C s.database.tables s.ledger

theorem Settled.of_at (hs : Settled chain genesis base C t l) {s : Session γ} (h : At t l s) :
    Settled chain genesis base C s.database.tables s.ledger := by
  obtain ⟨rfl, rfl⟩ := h
  exact hs

/-- Whatever leaves alone what the total depends on. -/
theorem Settled.frame (hs : Settled chain genesis base C t l) {u : Tables}
    (hb : ∃ c, u.checkpoint? blocksName = some c) (hc : u.checkpoint? totalName = t.checkpoint? totalName)
    (htotals : u.totals = t.totals) (hblocks : u.consensusBlocks = t.consensusBlocks) :
    Settled chain genesis base C u l :=
  { hs with
    blockCheckpoint := hb
    checkpoint := hc.trans hs.checkpoint
    points := htotals.trans hs.points
    blocks := hblocks ▸ hs.blocks }

/-! ## Block times -/

theorem timesBetween_sound {blocks : List ConsensusBlock} (h : Timely chain blocks) (low high : Nat)
    (heights : List Nat) : ∀ p ∈ timesBetween low high heights blocks, p.2 = chain.time p.1 := by
  have hfold : ∀ {rows : List ConsensusBlock} {times : Times}, Timely chain rows →
      (∀ p ∈ times, p.2 = chain.time p.1) → ∀ p ∈ rows.foldl (fun times b =>
        if heights.contains (Word.readBack b.height) then
          Keyed.put Prod.fst (Word.readBack b.height, Word.low b.time) times
        else times) times, p.2 = chain.time p.1 := by
    intro rows
    induction rows with
    | nil => exact fun _ ht => ht
    | cons b rows ih =>
      intro times hrows ht
      obtain ⟨⟨hb, hlt⟩, hrest⟩ := List.forall_mem_cons.mp hrows
      refine ih hrest ?_
      beta_reduce
      split
      · intro p hp
        rcases Keyed.mem_put hp with rfl | hp
        · have h₁ := chain.time_nonneg b.height
          have h₂ := chain.time_lt b.height
          rw [Word.readBack_of_lt hlt, hb, Word.low_of_lt (by omega) h₂]
        · exact ht p hp
      · exact ht
  refine hfold (fun b hb => h b ?_) (by simp)
  exact (List.mem_filter.mp (List.mem_mergeSort.mp hb)).1

theorem blockTimes_ends (h : Timely chain t.consensusBlocks) (heights : List Nat) :
    Ends (Holds t) (blockTimes heights) (fun times d => (∀ p ∈ times, p.2 = chain.time p.1) ∧ Holds t d)
      (Holds t) := by
  unfold blockTimes
  split
  · rename_i low high _ _
    refine (query_ends _).post ?_
    rintro times d ⟨rfl, hd⟩
    exact ⟨timesBetween_sound h low high heights, hd⟩
  · exact Ends.pure fun d hd => ⟨by simp, hd⟩

/-! ## Batches -/

/-- Blocks of a feed that follows the chain have its times, wherever they are written. -/
theorem Timely.putAll {rows table : List ConsensusBlock} (hrows : Timely chain rows) (h : Timely chain table) :
    Timely chain (Keyed.putAll ConsensusBlock.height rows table) := by
  unfold Keyed.putAll
  induction rows generalizing table with
  | nil => exact h
  | cons b rows ih =>
    obtain ⟨hb, hrest⟩ := List.forall_mem_cons.mp hrows
    refine ih hrest fun c hc => ?_
    rcases Keyed.mem_put hc with rfl | hc
    · exact hb
    · exact h c hc

theorem timely_gather (hf : feed.Follows chain) (hlast : last < 0x80000000) {rows : List ConsensusBlock}
    (h : Feed.gather first last feed.block = .ok rows) : Timely chain rows := by
  have hmap := Feed.gather_map (f := fun b => (b.height, b.time)) (g := fun h => (h, chain.time h))
    (fun h b hb => by rw [(hf.block h b hb).1, (hf.block h b hb).2]) h
  intro b hb
  have hmem : (b.height, b.time) ∈ rows.map fun b => (b.height, b.time) := List.mem_map_of_mem hb
  rw [hmap] at hmem
  obtain ⟨k, hk, heq⟩ := List.mem_map.mp hmem
  rw [List.mem_range'_1] at hk
  obtain ⟨rfl, ht⟩ := Prod.mk.inj heq
  exact ⟨ht.symm, by omega⟩

/-- **A batch of blocks** leaves the total where it stands. -/
theorem blocks_ends (hs : Settled chain genesis base C t l) (hf : feed.Follows chain) (hlast : last < 0x80000000) :
    Ends (At t l) ((blocks feed).cover first last)
      (fun _ (s : Session γ) => Settled chain genesis base C s.database.tables s.ledger) (At t l) := by
  refine Ends.ofExcept.bind fun rows => Ends.assuming fun hrows => ?_
  refine (onStore_ends (consensusBlocks_ends blocksName rows last)).post ?_
  rintro _ s ⟨ht, rfl⟩
  rw [show s.database.tables = _ from ht]
  refine { hs with blockCheckpoint := ?_, checkpoint := ?_, blocks := ?_ }
  · exact checkpoint?_advance_isSome last hs.blockCheckpoint
  · rw [checkpoint?_advance_of_ne (by decide)]
    exact hs.checkpoint
  · exact (timely_gather hf hlast hrows).putAll hs.blocks

/-- **A batch of the total** moves it to the end of its range, or leaves it where it stands: after a fault nothing has
changed, neither the tables nor the total in memory. -/
theorem total_ends (hs : Settled chain genesis base C t l) (hf : feed.Follows chain) (hfirst : first ≤ C + 1)
    (hlast : last < 0x80000000) :
    Ends (At t l) ((total feed genesis).cover first last)
      (fun _ (s : Session γ) => Settled chain genesis base (max C last) s.database.tables s.ledger) (At t l) := by
  have hhalf := hs.half
  refine (onStore_reads (storedHeight_ends hs.checkpoint hs.half)).bind fun done => Ends.assuming ?_
  rintro rfl
  refine Ends.ofExcept.bind fun next => Ends.assuming fun hnext => ?_
  obtain rfl := Uptime.successor_eq hnext
  have hstart : max first (done + 1) = done + 1 := by omega
  simp only [hstart]
  split
  · rename_i hgt
    refine Ends.pure ?_
    rintro s ⟨rfl, rfl⟩
    rwa [Nat.max_eq_left (by omega)]
  rename_i hle
  refine Ends.ofExcept.bind fun lists => Ends.assuming fun hlists => ?_
  refine Ends.ofExcept.bind fun deltas => Ends.assuming fun hdeltas => ?_
  refine (onStore_reads (blockTimes_ends hs.blocks _)).bind fun times => Ends.assuming fun htimes => ?_
  refine (Ends.state.post (T := fun p s => p.ledger = l ∧ At t l s) ?_).bind fun p => Ends.assuming ?_
  · rintro p s ⟨rfl, h⟩
    exact ⟨h.2, h⟩
  rintro rfl
  refine Ends.ofExcept.bind fun applied => Ends.assuming fun happlied => ?_
  refine (onStore_ends (totals_ends totalName applied.2 last)).bind fun _ => Ends.update ?_
  rintro s ⟨ht, -⟩
  have hlists : lists = (List.range' (done + 1) (last + 1 - (done + 1))).map chain.events := by
    simpa using Feed.gather_map (f := fun a => a) hf.events hlists
  obtain ⟨hdeltas, hreadable⟩ := deltasOf_eq hdeltas
  subst hlists hdeltas
  obtain ⟨htotal, hpoints⟩ := ConsensusChain.applyOnto_series htimes hs.total
    (show Keyed.putAll Point.time [] t.totals = _ from hs.points) happlied
  have hmax : max done last = done + (last + 1 - (done + 1)) := by omega
  rw [show s.database.tables = _ from ht, hmax]
  refine { hs with
    blockCheckpoint := ?_, checkpoint := ?_, half := ?_, total := htotal, points := hpoints, readable := ?_ }
  · exact checkpoint?_advance_isSome last hs.blockCheckpoint
  · rw [← hmax]
    exact checkpoint?_advance hs.checkpoint (by omega) (by omega)
  · omega
  · intro h hh e he
    rw [Finset.mem_Icc] at hh
    by_cases hd : h ≤ done
    · exact hs.readable h (Finset.mem_Icc.mpr (by omega)) e he
    · refine hreadable (chain.events h) (List.mem_map.mpr ⟨h, ?_, rfl⟩) e he
      rw [List.mem_range'_1]
      omega

/-- **What a batch of the total writes**: points and its checkpoint, or nothing. -/
theorem total_effect :
    Ends (At t l) ((total feed genesis).cover first last)
      (fun _ (s : Session γ) => s.database.tables = t ∨ ∃ points, s.database.tables = Tables.advance totalName last
        { t with totals := Keyed.putAll Point.time points t.totals }) (At t l) := by
  have htimes : ∀ heights, Ends (At t l) (onStore (γ := γ) (blockTimes heights)) (fun _ => At t l) (At t l) := by
    intro heights
    refine (onStore_reads (Q := fun _ => True) ?_).post fun _ _ h => h.2
    unfold blockTimes
    split
    · exact (query_ends _).post fun _ _ h => ⟨trivial, h.2⟩
    · exact Ends.pure fun d hd => ⟨trivial, hd⟩
  refine (storedHeight_keeps totalName).bind fun done => Ends.ofExcept.bind fun next => Ends.assuming fun _ => ?_
  simp only
  split
  · exact Ends.pure fun s h => .inl h.1
  refine Ends.ofExcept.bind fun lists => Ends.assuming fun _ => ?_
  refine Ends.ofExcept.bind fun deltas => Ends.assuming fun _ => ?_
  refine (htimes _).bind fun times => (Ends.state.post fun _ _ h => h.2).bind fun p => ?_
  refine Ends.ofExcept.bind fun applied => Ends.assuming fun _ => ?_
  refine (onStore_ends (totals_ends totalName applied.2 last)).bind fun _ => Ends.update ?_
  exact fun s h => .inr ⟨applied.2, h.1⟩

/-! ## Start-up -/

/-- The indexers of the blocks and of the total. -/
def duo (feed : ConsensusFeed) (genesis : Genesis) (schedule : Schedule) : Fleet (Session γ) :=
  ⟨Session.loop schedule, [blocks feed, total feed genesis]⟩

/-- The tables after start-up. -/
def started (genesis : Genesis) (t : Tables) : Tables :=
  { t with
    checkpoints := Keyed.keep Checkpoint.indexer ⟨totalName, 0⟩
      (Keyed.keep Checkpoint.indexer ⟨blocksName, 0⟩ t.checkpoints)
    totals := Keyed.keep Point.time genesis.point t.totals }

/-- The total after start-up: that of the latest point, as a query hands it back. -/
def foundTotal (genesis : Genesis) (points : List Point) : Int :=
  ((leading? (fun a b => pointInOrder b a) points).map fun p => Word.low p.amount).getD genesis.amount

/-- **Start-up** sets up what is not there yet, and takes the total from the latest point. -/
theorem init_ends (schedule : Schedule) :
    Ends (At t l) ((duo feed genesis schedule).init)
      (fun _ (s : Session γ) => s.database.tables = started genesis t ∧
        s.ledger.total = foundTotal genesis (started genesis t).totals) fun _ => True := by
  have hinit : (duo (γ := γ) feed genesis schedule).init = (do
      (Session.loop schedule).checkpoints.setup blocksName
      (Session.loop schedule).checkpoints.setup totalName
      (total feed genesis).init) := by
    simp only [Fleet.init, duo, each, bind_assoc, bind_pure_unit, blocks]
    rfl
  rw [hinit]
  refine ((setup_ends schedule blocksName).fault fun _ _ => trivial).bind fun _ => ?_
  refine ((setup_ends schedule totalName).fault fun _ _ => trivial).bind fun _ => ?_
  refine ((onStore_ends (write_ends _)).fault fun _ _ => trivial).bind fun _ => ?_
  refine ((onStore_ends (query_ends _)).fault fun _ _ => trivial).bind fun latest => Ends.update ?_
  rintro s ⟨⟨rfl, ht⟩, -⟩
  refine ⟨ht, ?_⟩
  simp only [foundTotal, Option.map_map]
  rfl

/-- Start-up over tables in which the total stands changes no table. -/
theorem Settled.started_eq (hs : Settled chain genesis base C t l) : started genesis t = t := by
  obtain ⟨c, hc⟩ := hs.blockCheckpoint
  have hseed : ∃ p ∈ t.totals, p.time = genesis.point.time := by
    rw [hs.points]
    rcases chain.series_row genesis base genesis.time C with
      ⟨h, -, hrow⟩ | ⟨-, hrow⟩
    · exact ⟨_, Keyed.mem_of_get? hrow, rfl⟩
    · rw [if_pos rfl] at hrow
      exact ⟨_, Keyed.mem_of_get? hrow, rfl⟩
  obtain ⟨p, hp, htime⟩ := hseed
  simp only [started, keep_checkpoint hc ⟨blocksName, 0⟩ rfl, keep_checkpoint hs.checkpoint ⟨totalName, 0⟩ rfl,
    Keyed.keep_of_mem hp htime]

/-- Start-up over an empty database. -/
theorem settled_started (h : l.total = foundTotal genesis (started genesis {}).totals) :
    Settled chain genesis (Word.low genesis.amount) 0 (started genesis {}) l where
  blockCheckpoint := ⟨⟨blocksName, 0⟩, rfl⟩
  checkpoint := rfl
  half := by decide
  total := by
    rw [h]
    simp [foundTotal, started, Keyed.keep, Keyed.get?, leading?, ConsensusChain.totalAt, Genesis.point]
  points := rfl
  blocks := fun _ hb => nomatch hb
  readable := by simp

/-- A restart changes no table, and takes over the total of the latest point. -/
theorem Settled.restart (hs : Settled chain genesis base C t l) {schedule : Schedule} {s s' : Session γ}
    (ht : s.database.tables = t) (h : (duo feed genesis schedule).init s = (.ok (), s')) :
    s'.database.tables = t ∧ s'.ledger.total = foundTotal genesis (chain.series genesis base C) := by
  have := (init_ends (t := t) (l := s.ledger) schedule).of_ok ⟨ht, rfl⟩ h
  rwa [hs.started_eq, hs.points] at this

/-! ## Runs -/

namespace Consensus

/-- **The states of any run**, with the checkpoints at which it was restarted, the latest first: start-up on an empty
database, batches of blocks, batches of the total that leave no gap, and restarts over the same tables. Every batch has
a feed of its own, and whatever fails in it, the run goes on. -/
inductive Reaches (chain : ConsensusChain) (genesis : Genesis) : List Nat → Session γ → Prop
  | boot {feed : ConsensusFeed} {schedule : Schedule} {s s' : Session γ} : s.database.tables = {} →
      (duo feed genesis schedule).init s = (.ok (), s') → Reaches chain genesis [] s'
  | blocks {feed : ConsensusFeed} {first last : Nat} {rs : List Nat} {s : Session γ} : Reaches chain genesis rs s →
      feed.Follows chain → last < 0x80000000 →
      Reaches chain genesis rs ((Consensus.blocks feed).cover first last s).2
  | total {feed : ConsensusFeed} {first last : Nat} {rs : List Nat} {s : Session γ} : Reaches chain genesis rs s →
      feed.Follows chain → last < 0x80000000 →
      (∀ C, s.database.tables.checkpoint? totalName = some ⟨totalName, C⟩ → first ≤ C + 1) →
      Reaches chain genesis rs ((Consensus.total feed genesis).cover first last s).2
  | restart {feed : ConsensusFeed} {schedule : Schedule} {C : Nat} {rs : List Nat} {s s' s'' : Session γ} :
      Reaches chain genesis rs s → s.database.tables.checkpoint? totalName = some ⟨totalName, C⟩ →
      s'.database.tables = s.database.tables → (duo feed genesis schedule).init s' = (.ok (), s'') →
      Reaches chain genesis (C :: rs) s''

/-- A restart at `C` finds the total again. -/
def Kept (chain : ConsensusChain) (genesis : Genesis) (base : Int) (C : Nat) : Prop :=
  foundTotal genesis (chain.series genesis base C) = chain.totalAt base C

/-- **In a run whose restarts find the total again, the total stands** at the stored checkpoint. -/
theorem Reaches.settled {rs : List Nat} {s : Session γ} (h : Reaches chain genesis rs s)
    (hrs : ∀ C ∈ rs, Kept chain genesis (Word.low genesis.amount) C) :
    Stands chain genesis (Word.low genesis.amount) s := by
  induction h with
  | @boot _ schedule s s' ht hinit =>
    obtain ⟨h₁, h₂⟩ := (init_ends (t := {}) (l := s.ledger) schedule).of_ok ⟨ht, rfl⟩ hinit
    exact ⟨0, h₁ ▸ settled_started h₂⟩
  | blocks _ hf hlast ih =>
    obtain ⟨C, hs⟩ := ih hrs
    exact ⟨C, ((blocks_ends hs hf hlast).fault fun _ => hs.of_at).snd ⟨rfl, rfl⟩⟩
  | total _ hf hlast hfirst ih =>
    obtain ⟨C, hs⟩ := ih hrs
    have hends := total_ends (γ := γ) hs hf (hfirst C hs.checkpoint) hlast
    exact (hends.mono (F := Stands chain genesis _) (fun _ h => h) (fun _ _ h => ⟨_, h⟩)
      fun _ h => ⟨C, hs.of_at h⟩).snd ⟨rfl, rfl⟩
  | restart _ hC ht hinit ih =>
    obtain ⟨C, hs⟩ := ih fun C hC => hrs C (List.mem_cons_of_mem _ hC)
    have : C = _ := congrArg Checkpoint.height (Option.some.inj (hs.checkpoint.symm.trans hC))
    subst this
    obtain ⟨h₁, h₂⟩ := hs.restart ht hinit
    refine ⟨C, ?_⟩
    rw [h₁]
    exact { hs with total := h₂.trans (hrs C List.mem_cons_self) }

/-- **The running total is exact** in every state that a run from an empty database reaches, in whatever order batches
of blocks and of the total come, however often a range is asked for again and whatever fails.

With the checkpoint at `C`, the total in memory is the first amount and what the heights up to `C` add to it. The table
holds one row for each second that is that of the first point or of a height up to `C` with a change, and the row of a
second holds the total after the last such height. Every amount that was added is a numeral. -/
theorem total_exactly_once {s : Session γ} (h : Reaches chain genesis [] s) (h₀ : 0 ≤ genesis.amount)
    (h₁ : genesis.amount < 0x80000000) :
    ∃ C, s.database.tables.checkpoint? totalName = some ⟨totalName, C⟩ ∧
      s.ledger.total = genesis.amount + ∑ h ∈ Finset.Icc 1 C, chain.net h ∧
      (s.database.tables.totals.map Point.time).Nodup ∧
      (∀ time, (∃ p ∈ s.database.tables.totals, p.time = time) ↔
        time = genesis.time ∨ ∃ h ∈ Finset.Icc 1 C, chain.Carries h ∧ chain.time h = time) ∧
      (∀ p ∈ s.database.tables.totals, ∀ last,
        IsGreatest {h | h ∈ Finset.Icc 1 C ∧ chain.Carries h ∧ chain.time h = p.time} last →
        p.amount = genesis.amount + ∑ h ∈ Finset.Icc 1 last, chain.net h) ∧
      (∀ p ∈ s.database.tables.totals, (∀ h ∈ Finset.Icc 1 C, chain.Carries h → chain.time h ≠ p.time) →
        p = genesis.point) ∧
      ∀ h ∈ Finset.Icc 1 C, ∀ e ∈ chain.events h, Readable e := by
  obtain ⟨C, hs⟩ := h.settled fun _ hC => nomatch hC
  rw [Word.low_of_lt (by omega) h₁] at hs
  refine ⟨C, hs.checkpoint, hs.total.trans (ConsensusChain.totalAt_eq C), ?_, ?_, ?_, ?_, hs.readable⟩
  all_goals rw [hs.points]
  · exact chain.nodup_series genesis genesis.amount C
  · exact fun time => ConsensusChain.mem_series_time time C
  · intro p hp last hlast
    rw [ConsensusChain.amount_of_mem_series hp hlast, ConsensusChain.totalAt_eq]
  · exact fun p hp hno => ConsensusChain.eq_point_of_mem_series hp hno

/-! ## A run -/

/-- One delegation at height 1. -/
def sample : ConsensusChain where
  events h := if h = 1 then [⟨"delegate_success", [⟨"amount", "1"⟩]⟩] else []
  time _ := 100
  time_nonneg := ConsensusChain.still_nonneg
  time_lt := ConsensusChain.still_lt

/-- A feed of this chain that never fails. -/
def sampleFeed : ConsensusFeed where
  head := .ok 1
  block h := .ok ⟨h, "", "", sample.time h⟩
  events h := .ok (sample.events h)
  commit _ := .ok []
  validators _ _ _ := .ok ⟨[], 0⟩

/-- Start-up, a batch of blocks and a batch of the total. -/
def sampleRun (genesis : Genesis) : Session Unit :=
  let booted := ((duo sampleFeed genesis {}).init { database := {}, cache := (), ledger := ⟨0⟩ }).2
  let stored := ((blocks sampleFeed).cover 1 1 booted).2
  ((total sampleFeed genesis).cover 1 1 stored).2

theorem sampleFeed_follows : sampleFeed.Follows sample where
  events _ _ hl := (Except.ok.inj hl).symm
  block _ _ hb := by
    cases hb
    exact ⟨rfl, rfl⟩

theorem sampleRun_reaches (genesis : Genesis) : Reaches sample genesis [] (sampleRun genesis) := by
  have hinit : (duo sampleFeed genesis {}).init { database := {}, cache := (), ledger := ⟨0⟩ } = (.ok (), _) :=
    Prod.ext rfl rfl
  have hboot : Reaches sample genesis [] _ := .boot (by rfl) hinit
  exact .total (.blocks hboot sampleFeed_follows (by decide)) sampleFeed_follows (by decide) fun C _ => by omega

/-- The run is exact, and it does move the total. -/
theorem sampleRun_exact :
    (sampleRun ⟨10, 50, 1⟩).ledger.total = 11 ∧
      ∃ C, (sampleRun ⟨10, 50, 1⟩).database.tables.checkpoint? totalName = some ⟨totalName, C⟩ ∧
        (sampleRun ⟨10, 50, 1⟩).ledger.total = 10 + ∑ h ∈ Finset.Icc 1 C, sample.net h := by
  obtain ⟨C, hC, htotal, -⟩ := total_exactly_once (sampleRun_reaches ⟨10, 50, 1⟩) (by decide) (by decide)
  exact ⟨by cbv, C, hC, htotal⟩

end Consensus

end StakeTrail.Indexing
