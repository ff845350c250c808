import StakeTrail.Proofs.Indexing.Invariants
import StakeTrail.Proofs.Indexing.NormalRows
import StakeTrail.Proofs.Store.Lookups

/-!
# Spelling splits no rows and hides none

All nine indexers keep the tables findable, whatever texts their nodes deliver (`catalog_keeps`), so every stored address
and hash is in normal form in every state of every run (`Reaches.findable`).

**No spelling splits a row or hides one** (`spelling_hides_no_row`): logs and events of one transaction are joined, an
address has one row of rewards, and every row is found in any letter case.
-/

namespace StakeTrail.Indexing.Spellings

open StakeTrail.Action Address Session Store Text

variable {γ : Type} {cache : Cache γ} {feed : ConsensusFeed} {feed' : ExecutionFeed} {now : List Position × Session γ}
  {t : Tables}

/-! ## The indexers -/

theorem storedHeight_keeps {U : Tables → Prop} (name : String) :
    Database.Keeps U (Consensus.storedHeight name) := by
  have hload : Database.Keeps U (Store.checkpoints.load name) := by
    simp only [Store.checkpoints]
    exact .query _
  exact hload.bind fun height => .pure _

theorem blockTimes_keeps {U : Tables → Prop} (heights : List Nat) : Database.Keeps U (blockTimes heights) := by
  unfold blockTimes
  split
  · exact .query _
  · exact .pure _

theorem consensusBlocks_keeps : (Consensus.blocks (γ := γ) feed).Keeps Findable where
  init := .pure ()
  target := .ofExcept _
  cover _ _ := .ofExcept_bind fun rows _ => .onStore (Findable.keeps_consensusBlocks rows)

theorem consensusEvents_keeps : (Consensus.events (γ := γ) feed).Keeps Findable where
  init := .pure ()
  target := .ofExcept _
  cover _ _ :=
    .ofExcept_bind fun _ _ =>
      .ofExcept_bind fun _ hrows => .onStore (Findable.keeps_consensusEvents (Staking.rowsOfHeights_normal hrows))

theorem total_keeps (genesis : Stake.Genesis) : (Consensus.total (γ := γ) feed genesis).Keeps Findable where
  init := by
    apply Keeps.bind (.onStore (Findable.keeps_seedTotal genesis.point))
    intro _
    apply Keeps.bind (.onStore (.query _))
    exact fun latest => .setLedger _
  target := by
    apply Keeps.bind (.ofExcept _)
    intro head
    apply Keeps.bind (.onStore (storedHeight_keeps _))
    exact fun stored => .pure _
  cover first last := by
    apply Keeps.bind (.onStore (storedHeight_keeps _))
    intro done
    apply Keeps.ofExcept_bind
    intro next _
    dsimp only
    split
    · exact .pure ()
    · apply Keeps.ofExcept_bind
      intro lists _
      apply Keeps.ofExcept_bind
      intro deltas _
      apply Keeps.bind (.onStore (blockTimes_keeps _))
      intro times
      apply Keeps.bind .state
      intro p
      apply Keeps.ofExcept_bind
      intro applied _
      apply Keeps.bind (.onStore (Findable.keeps_totals _))
      exact fun _ => .setLedger _

theorem history_keeps (genesis : Stake.Genesis) : (Consensus.history (γ := γ) genesis).Keeps Findable where
  init := .onStore (Findable.keeps_seedHistory _)
  target := by
    apply Keeps.bind (.onStore (storedHeight_keeps _))
    intro blocks
    apply Keeps.bind (.onStore (storedHeight_keeps _))
    exact fun events => .pure _
  cover first last := by
    apply Keeps.bind (.onStore (.query _))
    intro latest
    apply Keeps.ofExcept_bind
    intro next _
    have hrest : ∀ changes, Keeps (γ := γ) Findable
        (Consensus.commitChanges (latest.getD genesis.historyPoint).amount last changes) := by
      intro changes
      apply Keeps.ofExcept_bind
      intro found _
      apply Keeps.ofExcept_bind
      exact fun applied _ => .onStore (Findable.keeps_history _)
    dsimp only
    split
    · exact Keeps.bind (.onStore (.query _)) hrest
    · exact Keeps.bind (.pure []) hrest

theorem uptimes_keeps : (Consensus.uptimes feed cache).Keeps Findable where
  init := .pure ()
  target := .ofExcept _
  cover first last := by
    apply Keeps.ofExcept_bind
    intro found hfound
    apply Keeps.ofExcept_bind
    intro tracker htracker
    have hnormal : tracker.Normal :=
      Uptime.track_normal (Feed.gather_forall (fun _ _ => Uptime.evidence_normal) hfound) (List.forall_mem_nil _) htracker
    apply Keeps.bind (.onStore (Findable.keeps_intervals hnormal.rows))
    exact fun _ => onCache_keeps

theorem votes_keeps (window : Nat) : (Consensus.votes feed cache window).Keeps Findable where
  init := .pure ()
  target := .ofExcept _
  cover first last := by
    apply Keeps.ofExcept_bind
    intro found hfound
    apply Keeps.ofExcept_bind
    intro rows hrows
    apply Keeps.ofExcept_bind
    intro keepFrom _
    have hnormal := Uptime.votesOf_normal (Feed.gather_forall (fun _ _ => Uptime.evidence_normal) hfound) hrows
    apply Keeps.bind (.onStore (Findable.keeps_votes hnormal keepFrom))
    exact fun _ => onCache_keeps

theorem executionBlocks_keeps : (Execution.blocks (γ := γ) feed').Keeps Findable where
  init := .pure ()
  target := .ofExcept _
  cover _ _ := .ofExcept_bind fun rows _ => .onStore (Findable.keeps_executionBlocks rows)

theorem executionEvents_keeps : (Execution.events (γ := γ) feed').Keeps Findable where
  init := .pure ()
  target := .ofExcept _
  cover _ _ :=
    .ofExcept_bind fun _ _ =>
      .ofExcept_bind fun _ hrows => .onStore (Findable.keeps_executionEvents (Contract.rowsOfLogs_normal hrows))

theorem commitPending_keeps {pending : Reward.Accumulator} (h : ∀ d ∈ pending, IsNormal d.address) (height : Nat) :
    Keeps Findable (Execution.commitPending cache pending height) := by
  have hdrained : ∀ d ∈ pending.drained, IsNormal d.address := fun d hd => h d (List.mem_mergeSort.mp hd)
  apply Keeps.bind (.onStore (Findable.keeps_rewards hdrained))
  exact fun _ => onCache_keeps

/-- What is still pending after some blocks is pending for normal addresses. -/
theorem collect_ends (flushSize : Nat) : ∀ {blocks : List ExecutionBlock} {pending : Reward.Accumulator},
    (∀ d ∈ pending, IsNormal d.address) →
    Ends (fun s : Session γ => Findable s.database.tables) (Execution.collect cache flushSize pending blocks)
      (fun left s => (∀ d ∈ left, IsNormal d.address) ∧ Findable s.database.tables)
      fun s => Findable s.database.tables
  | [], _, h => Ends.pure fun _ hs => ⟨h, hs⟩
  | block :: blocks, pending, h => by
    have hadded := Reward.Accumulator.addAll_normal h block.height block.withdrawals
    unfold Execution.collect
    dsimp only
    split
    · apply Ends.bind (commitPending_keeps hadded block.height)
      exact fun _ => collect_ends flushSize (List.forall_mem_nil _)
    · exact collect_ends flushSize hadded

theorem rewards_keeps (flushSize : Nat) : (Execution.rewards feed' cache flushSize).Keeps Findable where
  init := .pure ()
  target := .ofExcept _
  cover first last := by
    apply Keeps.ofExcept_bind
    intro blocks _
    apply Ends.bind (collect_ends flushSize (List.forall_mem_nil _))
    intro left
    apply Ends.assuming
    exact fun hleft => commitPending_keeps hleft last

/-- **Every indexer keeps the tables findable**, whatever its nodes deliver. -/
theorem catalog_keeps (settings : Settings) : ∀ ix ∈ catalog feed feed' cache settings, ix.Keeps Findable := by
  simp only [catalog, List.forall_mem_cons, List.not_mem_nil, false_imp_iff, implies_true, and_true]
  exact ⟨consensusBlocks_keeps, consensusEvents_keeps, total_keeps _, history_keeps _, uptimes_keeps, votes_keeps _,
    executionBlocks_keeps, executionEvents_keeps, rewards_keeps _⟩

/-! ## Runs -/

/-- All indexers over some nodes. -/
def fleet (feed : ConsensusFeed) (feed' : ExecutionFeed) (cache : Cache γ) (settings : Settings) (schedule : Schedule)
    (cancelled : Session γ → Bool) : Fleet (Session γ) :=
  ⟨loopUntil schedule cancelled, catalog feed feed' cache settings⟩

/-- The fleets of all indexers, over any nodes. -/
def IsFleet (f : Fleet (Session γ)) : Prop :=
  ∃ feed feed' cache settings schedule cancelled, f = fleet feed feed' cache settings schedule cancelled

/-- **What happens besides**: the indexers are started, whatever comes of it, or something else leaves the tables alone. -/
inductive Elsewhere (s : Session γ) : Session γ → Prop
  | init {f : Fleet (Session γ)} : IsFleet f → Elsewhere s (f.init s).2
  | other {s' : Session γ} : s'.database.tables = s.database.tables → Elsewhere s s'

/-- **The states of any run** of all loops from an empty database. Every turn may be one with other nodes. -/
def Reaches : List Position × Session γ → Prop :=
  Runs IsFleet Elsewhere fun now => now.2.database.tables = {} ∧ now.1 = catalogNames.map fun _ => .waiting

/-- **In any run the tables are findable.** -/
theorem Reaches.findable (h : Reaches now) : Findable now.2.database.tables := by
  refine Runs.keeps catalogNames h ?_ ?_ ?_
  · rintro now ⟨ht, -⟩
    rw [ht]
    exact .empty
  · rintro f ⟨feed, feed', cache, settings, schedule, cancelled, rfl⟩
    exact ⟨rfl, ⟨schedule, cancelled, rfl⟩, catalog_keeps settings⟩
  · rintro s s' (@⟨f, feed, feed', cache, settings, schedule, cancelled, rfl⟩ | hsame) hs
    · have hinit : Keeps Findable (fleet feed feed' cache settings schedule cancelled).init := by
        apply Keeps.init
        · exact fun name => .setup fun t h => h.setup name
        · exact fun ix hix => (catalog_keeps settings ix hix).init
      exact hinit.snd hs
    · rwa [hsame]

/-! ## What follows for rows and lookups -/

/-- **A log and an event of one transaction have one hash**, however their nodes spell it. -/
theorem txHash_eq {bytes : Bytes} (hne : bytes ≠ []) {el : Staking.ExecutionEvent} {cl : Staking.ConsensusEvent}
    {log : LogRecord} {block index : Nat} {event : EventRecord} (hlog : Contract.rowOfLog log = .ok (some el))
    (hevent : Staking.rowOfEvent block index event = .ok (some cl)) (hs : Spelled bytes log.txHash)
    (hs' : Spelled bytes ((event.get? "tx_hash").getD "")) : cl.txHash = el.txHash := by
  have hel : el.txHash = normalForm log.txHash := congrArg Prod.fst (Contract.rowOfLog_place hlog).1
  have hcl : cl.txHash = normalForm ((event.get? "tx_hash").getD "") := by
    rcases Staking.rowOfEvent_eq hevent with ⟨-, hnone⟩ | ⟨base, kind, -, -, hsome⟩
    · cases hnone
    · cases hsome
      rfl
  rw [hel, hcl, hs.normalForm_eq hne, hs'.normalForm_eq hne]

/-- **An address has one row of rewards**, whatever spellings its rows may be read as. -/
theorem reward_unique (h : Findable t) {bytes : Bytes} (hne : bytes ≠ []) {r r' : RewardRow} (hr : r ∈ t.rewards)
    (hr' : r' ∈ t.rewards) (hs : Spelled bytes r.address) (hs' : Spelled bytes r'.address) : r = r' := by
  have haddress : r.address = r'.address := by
    rw [← (h.rewards r hr).fixed, ← (h.rewards r' hr').fixed, hs.normalForm_eq hne, hs'.normalForm_eq hne]
  exact List.inj_on_of_nodup_map h.rewards_once hr hr' haddress

theorem collect_respelled {blocks blocks' : List ExecutionBlock}
    (h : List.Forall₂ ExecutionBlock.Respells blocks blocks') (flushSize : Nat) (pending : Reward.Accumulator) :
    Execution.collect cache flushSize pending blocks = Execution.collect cache flushSize pending blocks' := by
  induction h generalizing pending with
  | nil => rfl
  | cons hb _ ih =>
    obtain ⟨hheight, hwithdrawals⟩ := hb
    unfold Execution.collect
    simp only [hheight, pending.addAll_respelled hwithdrawals, ih]

/-- **The indexer of rewards sees no spelling**: it does the same with two feeds that deliver one chain. -/
theorem rewards_respelled {feed feed' : ExecutionFeed} (h : feed.Respells feed') (cache : Cache γ)
    (flushSize first last : Nat) :
    (Execution.rewards feed cache flushSize).cover first last =
      (Execution.rewards feed' cache flushSize).cover first last := by
  have hcover : ∀ feed : ExecutionFeed, (Execution.rewards feed cache flushSize).cover first last =
      Action.ofExcept (Feed.gather first last feed.block) >>= fun blocks =>
        Execution.collect cache flushSize [] blocks >>= fun left => Execution.commitPending cache left last :=
    fun _ => rfl
  rw [hcover, hcover]
  unfold Feed.gather
  rcases h.gatherFrom (last + 1 - first) first .nil with ⟨e, he, he'⟩ | ⟨l, l', hl, hl', hrespells⟩
  · rw [he, he']
  · rw [hl, hl']
    show Execution.collect cache flushSize [] l >>= _ = Execution.collect cache flushSize [] l' >>= _
    rw [collect_respelled hrespells]

/-- **Spelling splits no rows and hides none.** In any state of any run, every stored address and hash is in normal form,
and bringing a text into normal form once more changes nothing. So a log and an event whose nodes spell one transaction
hash are joined, an address has one row of rewards, to which a withdrawal is added in whatever spelling it comes, and
whatever the case of the letters that a stored ASCII address is asked with, its rows are found, and no others. -/
theorem spelling_hides_no_row (h : Reaches now) :
    NormalTexts now.2.database.tables ∧
    (∀ s, normalForm (normalForm s) = normalForm s) ∧
    (∀ bytes : Bytes, bytes ≠ [] →
      (∀ el ∈ now.2.database.tables.executionEvents, ∀ cl ∈ now.2.database.tables.consensusEvents,
        ∀ log block index event, Contract.rowOfLog log = .ok (some el) →
          Staking.rowOfEvent block index event = .ok (some cl) → Spelled bytes log.txHash →
          Spelled bytes ((event.get? "tx_hash").getD "") →
          (el, cl) ∈ joinedOperations now.2.database.tables el.address) ∧
      ∀ r ∈ now.2.database.tables.rewards, ∀ r' ∈ now.2.database.tables.rewards,
        Spelled bytes r.address → Spelled bytes r'.address → r = r') ∧
    (∀ feed feed' : ExecutionFeed, feed.Respells feed' → ∀ (cache : Cache γ) flushSize first last,
      (Execution.rewards feed cache flushSize).cover first last =
        (Execution.rewards feed' cache flushSize).cover first last) ∧
    ∀ q v, SameLetters q v → IsAscii v → Finds now.2.database.tables q v := by
  have hfindable := h.findable
  refine ⟨hfindable.toNormalTexts, fun s => (isNormal_normalForm s).fixed, fun bytes hne => ⟨?_, ?_⟩,
    fun feed feed' => rewards_respelled, fun q v => hfindable.finds⟩
  · intro el hel cl hcl log block index event hlog hevent hs hs'
    exact mem_joinedOperations.mpr ⟨hel, rfl, hcl, txHash_eq hne hlog hevent hs hs'⟩
  · intro r hr r' hr' hs hs'
    exact reward_unique hfindable hne hr hr' hs hs'

/-! ### A run over two nodes that spell differently -/

/-- A consensus node that spells a transaction hash in capitals, with blanks around it. -/
def sampleFeed : ConsensusFeed where
  head := .ok 1
  block h := .ok ⟨h, "", "", 0⟩
  events _ := .ok [⟨"set_operator_success", [⟨"tx_hash", " 0XF1A2 "⟩]⟩]
  commit _ := .ok []
  validators _ _ _ := .ok ⟨[], 0⟩

/-- An execution node that spells one address in two ways. -/
def sampleFeed' : ExecutionFeed where
  head := .ok 1
  block h := .ok ⟨h, "", 0, 0, 0, [⟨"0xAB", 5⟩, ⟨"ab ", 7⟩]⟩
  logs _ _ := .ok []

/-- All indexers over these nodes, with a cache that refuses every call. -/
def sampleFleet : Fleet (Session Unit) :=
  fleet sampleFeed sampleFeed' (Cache.refusing "down") { flushSize := 1 } { lag := 1 } (·.cancelled)

/-- Start-up, and two turns each for the consensus events and the rewards. -/
def sampleRun : List Position × Session Unit :=
  sampleFleet.run [1, 8, 1, 8]
    (catalogNames.map fun _ => .waiting, (sampleFleet.init { database := {}, cache := (), ledger := ⟨0⟩ }).2)

theorem sampleRun_reaches : Reaches sampleRun := by
  have hfleet : IsFleet sampleFleet := ⟨_, _, _, _, _, _, rfl⟩
  exact ((Runs.start ⟨rfl, rfl⟩).move (.init hfleet)).turns hfleet _

/-- The hash is stored in normal form, and the rewards of both spellings are found under a third one. -/
theorem sampleRun_spelling :
    sampleRun.2.database.tables.consensusEvents.map (·.txHash) = ["0xf1a2"] ∧
      Answers sampleRun.2.database.tables (reward "0XaB") (some ⟨"0xab", 12, 1⟩) := by
  have hrewards : sampleRun.2.database.tables.rewards = [⟨"0xab", "12", 1⟩] := by cbv
  have hhashes : sampleRun.2.database.tables.consensusEvents.map (·.txHash) = ["0xf1a2"] := by cbv
  obtain ⟨-, -, -, -, hfinds⟩ := spelling_hides_no_row sampleRun_reaches
  have hfinds := hfinds "0XaB" "0xab" (by decide) (by simp [IsAscii])
  generalize sampleRun.2.database.tables = t at hrewards hhashes hfinds
  obtain ⟨n, hn, hanswer⟩ := hfinds.reward ⟨"0xab", "12", 1⟩ (hrewards ▸ List.mem_singleton_self _) rfl
  have htwelve : n = 12 := by
    have hread := Batch.readReward_toString n
    rw [← hn] at hread
    have hsame : readReward "12" = .ok 12 := by cbv
    exact Except.ok.inj (hread.symm.trans hsame)
  subst htwelve
  exact ⟨hhashes, hanswer⟩

end StakeTrail.Indexing.Spellings
