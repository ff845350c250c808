import StakeTrail.Proofs.Indexing.History
import StakeTrail.Proofs.Indexing.Turns
import StakeTrail.Proofs.Staking.Kinds

/-!
# The history checks the total

The loops of the blocks, the events, the total and its history take turns over one session. Each of them keeps what the
others rely on (`pact`): total and history stand at their checkpoints, checkpoints do not move back, and a range that a
loop has found leaves no gap and, for the history, ends where the stored events do.

* `Reaches` are the states of any such run from an empty database.
* **The main statement** (`totals_differ`) says what the total has more than the last row of the history when both stand
  at one checkpoint: the changes that only the total counts (`Strays`) without those that only the history does
  (`Falls`).
-/

namespace StakeTrail.Indexing.CrossCheck

open StakeTrail.Action Store Database Session Consensus Stake Staking History

variable {γ : Type} {chain : ConsensusChain} {genesis : Genesis} {C E : Nat} {t u : Tables} {l : Ledger}
  {feed : ConsensusFeed} {first last target : Nat} {name : String}

/-- The indexers of the blocks, the events, the total and its history. -/
def quartet (feed : ConsensusFeed) (genesis : Genesis) (schedule : Schedule) : Fleet (Session γ) :=
  ⟨Session.loop schedule, [blocks feed, events feed, total feed genesis, history genesis]⟩

/-- Their names. -/
def names : List String := [blocksName, eventsName, totalName, historyName]

/-- Those whose ranges must not leave a gap. -/
def gapless : List String := [eventsName, totalName, historyName]

/-! ## What the loops rely on -/

/-- **Total and history stand**, each at its checkpoint. -/
structure Joint (chain : ConsensusChain) (genesis : Genesis) (t : Tables) (l : Ledger) : Prop where
  total : ∃ C, Settled chain genesis genesis.amount C t l
  history : ∃ C E, Chronicled chain genesis C E t

/-- No checkpoint moves back; that of the blocks does not matter. -/
def Later (t u : Tables) : Prop := ∀ name ∈ gapless, t.reached name ≤ u.reached name

/-- **Which ranges may be worked off**: those that leave no gap, and for the history end where the stored events do. -/
structure Fits (name : String) (t : Tables) (first target : Nat) : Prop where
  half : target < 0x80000000
  next : name ∈ gapless → first ≤ t.reached name + 1
  recorded : name = historyName → target ≤ t.reached eventsName

theorem Fits.mono (h : Fits name t first target) (hlater : Later t u) : Fits name u first target where
  half := h.half
  next hn := (h.next hn).trans (Nat.succ_le_succ (hlater name hn))
  recorded heq := (h.recorded heq).trans (hlater eventsName (by decide))

/-- What the four loops rely on. -/
def pact (chain : ConsensusChain) (genesis : Genesis) : Pact (Session γ) where
  inv s := Joint chain genesis s.database.tables s.ledger
  later s s' := Later s.database.tables s'.database.tables
  fits name s first target := Fits name s.database.tables first target
  refl _ _ _ := le_rfl
  trans h h' name hne := (h name hne).trans (h' name hne)
  lasting hlater h := h.mono hlater

/-- The checkpoints of events, total and history are half words. -/
theorem Joint.reached_lt (hj : Joint chain genesis t l) (h : name ∈ gapless) : t.reached name < 0x80000000 := by
  obtain ⟨C, hs⟩ := hj.total
  obtain ⟨D, E, hc⟩ := hj.history
  have hhalf := hc.half
  simp only [gapless, List.mem_cons, List.not_mem_nil, or_false] at h
  rcases h with rfl | rfl | rfl
  · rw [hc.eventCheckpoint]
    exact hhalf
  · rw [reached_of_some hs.checkpoint]
    exact hs.half
  · rw [hc.checkpoint]
    exact hc.covered.trans_lt hhalf

/-- Whatever changes neither a table nor the total. -/
theorem Joint.keep {s s' : Session γ} (hj : Joint chain genesis s.database.tables s.ledger)
    (h : At s.database.tables s.ledger s') : (pact chain genesis).inv s' ∧ (pact chain genesis).later s s' := by
  obtain ⟨ht, hl⟩ := h
  refine ⟨?_, fun name _ => ?_⟩
  · change Joint chain genesis s'.database.tables s'.ledger
    rw [ht, hl]
    exact hj
  · rw [ht]

/-- **An indexer keeps the pact** if its targets are half words, for the history no higher than the stored events, and a
batch leaves total and history standing and reaches its end. -/
theorem kept_of {ix : Indexer (Session γ)} (schedule : Schedule)
    (htarget : ∀ t l, Joint chain genesis t l → Ends (At t l) ix.target
      (fun h s => (h < 0x80000000 ∧ (ix.name = historyName → h ≤ t.reached eventsName)) ∧ At t l s) (At t l))
    (hcover : ∀ t l first last, Joint chain genesis t l → Fits ix.name t first last →
      Ends (At t l) (ix.cover first last)
        (fun _ s => Joint chain genesis s.database.tables s.ledger ∧ Later t s.database.tables ∧
          (ix.name ∈ gapless → last ≤ s.database.tables.reached ix.name)) (At t l)) :
    (pact chain genesis).Kept (Session.loop schedule) ix where
  look s hj := by
    have hlook : Ends (At s.database.tables s.ledger) ((Session.loop schedule).look ix) _ _ := look_ends (htarget _ _ hj)
    refine hlook.mono (fun s' h => h ▸ ⟨rfl, rfl⟩) (fun found s' ⟨⟨hc, hh⟩, hat⟩ => ⟨?_, hj.keep hat⟩) fun _ => hj.keep
    change Fits ix.name s'.database.tables _ _
    rw [hat.1]
    exact ⟨hh.1, fun hne => (congrArg Nat.succ (hc (hj.reached_lt hne))).le, hh.2⟩
  cover s first last target hj hfits _ hle := by
    have hfits' : Fits ix.name s.database.tables first last :=
      ⟨hle.trans_lt hfits.half, hfits.next, fun heq => hle.trans (hfits.recorded heq)⟩
    refine (hcover _ _ first last hj hfits').mono (fun s' h => h ▸ ⟨rfl, rfl⟩) ?_ fun _ => hj.keep
    rintro _ s' ⟨hj', hlater, hreached⟩
    refine ⟨⟨hfits.half, fun hne => Nat.succ_le_succ (hreached hne), fun heq => ?_⟩, hj', hlater⟩
    exact (hfits.recorded heq).trans (hlater eventsName (by decide))
  count c s hj := ⟨hj, fun _ _ => le_rfl⟩

theorem blocks_kept (schedule : Schedule) (hf : feed.Follows chain) (hhead : ∀ h, feed.head = .ok h → h < 0x80000000) :
    (pact (γ := γ) chain genesis).Kept (Session.loop schedule) (blocks feed) := by
  refine kept_of schedule (fun t l hj => ?_) fun t l first last hj hfits => ?_
  · refine Ends.ofExcept.post fun h s hh => ⟨⟨hhead h hh.1, fun heq => ?_⟩, hh.2⟩
    exact absurd heq (show blocksName ≠ historyName by decide)
  · obtain ⟨C, hs⟩ := hj.total
    obtain ⟨D, E, hc⟩ := hj.history
    refine ((blocks_effect hf hfits.half).and (blocks_ends hs hf hfits.half)).mono (fun _ h => h) ?_ fun _ h => h.1
    rintro _ s ⟨⟨rows, hrows, ht, -⟩, hs'⟩
    rw [ht] at hs' ⊢
    refine ⟨⟨⟨C, hs'⟩, D, E, hc.blocks_batch hrows⟩, fun name hn => ?_, fun hn => ?_⟩
    · have hne : name ≠ blocksName := by
        rintro rfl
        exact absurd hn (by decide)
      rw [reached_advance_of_ne hne]
      exact le_rfl
    · exact absurd hn (show blocksName ∉ gapless by decide)

theorem events_kept (schedule : Schedule) (hf : feed.Follows chain) (hhead : ∀ h, feed.head = .ok h → h < 0x80000000) :
    (pact (γ := γ) chain genesis).Kept (Session.loop schedule) (events feed) := by
  refine kept_of schedule (fun t l hj => ?_) fun t l first last hj hfits => ?_
  · refine Ends.ofExcept.post fun h s hh => ⟨⟨hhead h hh.1, fun heq => ?_⟩, hh.2⟩
    exact absurd heq (show eventsName ≠ historyName by decide)
  · obtain ⟨C, hs⟩ := hj.total
    obtain ⟨D, E, hc⟩ := hj.history
    have hE := hc.eventCheckpoint
    have hhalf := hc.half
    have hlast := hfits.half
    have hfirst : first ≤ t.reached eventsName + 1 := hfits.next (show eventsName ∈ gapless by decide)
    rw [hE] at hfirst
    refine (events_effect hc.recorded hf hfirst hlast).post ?_
    rintro _ s ⟨rows, hrows, hcheck, ht, rfl⟩
    have hc' := hc.events_batch hlast hcheck hrows
    rw [ht]
    refine ⟨⟨⟨C, hs.frame ?_ ?_ rfl rfl⟩, D, _, hc'⟩, fun name _ => ?_, fun _ => ?_⟩
    · exact checkpoint?_advance_isSome last hs.blockCheckpoint
    · exact checkpoint?_advance_of_ne (show totalName ≠ eventsName by decide) last
    · exact reached_le_advance rfl hcheck (by omega) (by omega) name
    · exact (le_max_right _ _).trans hc'.eventCheckpoint.ge

theorem total_kept (schedule : Schedule) (hf : feed.Follows chain) (hhead : ∀ h, feed.head = .ok h → h < 0x80000000) :
    (pact (γ := γ) chain genesis).Kept (Session.loop schedule) (total feed genesis) := by
  refine kept_of schedule (fun t l hj => ?_) fun t l first last hj hfits => ?_
  · refine Ends.ofExcept.bind fun head => Ends.assuming fun hh => ?_
    refine (storedHeight_keeps blocksName).bind fun stored => Ends.pure fun s h => ⟨⟨?_, ?_⟩, h⟩
    · exact (min_le_left _ _).trans_lt (hhead head hh)
    · exact fun heq => absurd heq (show totalName ≠ historyName by decide)
  · obtain ⟨C, hs⟩ := hj.total
    obtain ⟨D, E, hc⟩ := hj.history
    have hC := reached_of_some hs.checkpoint
    have hhalf := hs.half
    have hlast := hfits.half
    have hfirst : first ≤ t.reached totalName + 1 := hfits.next (show totalName ∈ gapless by decide)
    rw [hC] at hfirst
    refine ((total_ends hs hf hfirst hlast).and total_effect).mono (fun _ h => h) ?_ fun _ h => h.1
    rintro _ s ⟨hs', heffect⟩
    have hreached := reached_of_some hs'.checkpoint
    have hdone : last ≤ s.database.tables.reached totalName := (le_max_right _ _).trans hreached.ge
    rcases heffect with ht | ⟨points, ht⟩
    · refine ⟨⟨⟨_, hs'⟩, D, E, ?_⟩, fun name _ => ?_, fun _ => hdone⟩
      · rw [ht]
        exact hc
      · rw [ht]
    · refine ⟨⟨⟨_, hs'⟩, D, E, ?_⟩, fun name _ => ?_, fun _ => hdone⟩
      · rw [ht]
        refine hc.frame rfl rfl rfl ?_ ?_
        · exact reached_advance_of_ne (show historyName ≠ totalName by decide) last
        · exact reached_advance_of_ne (show eventsName ≠ totalName by decide) last
      · rw [ht]
        exact reached_le_advance rfl ⟨_, hs.checkpoint⟩ (by omega) (by omega) name

theorem history_kept (schedule : Schedule) (hheld : Held chain genesis) :
    (pact (γ := γ) chain genesis).Kept (Session.loop schedule) (history genesis) := by
  refine kept_of schedule (fun t l hj => ?_) fun t l first last hj hfits => ?_
  · have hlt : t.reached eventsName < 0x80000000 := hj.reached_lt (by decide)
    refine (storedHeight_keeps blocksName).bind fun blocks => ?_
    refine (onStore_reads (storedHeight_reached hlt)).bind fun events => Ends.assuming ?_
    rintro rfl
    exact Ends.pure fun s h => ⟨⟨(min_le_right _ _).trans_lt hlt, fun _ => min_le_right _ _⟩, h⟩
  · obtain ⟨C, hs⟩ := hj.total
    obtain ⟨D, E, hc⟩ := hj.history
    have hcovered := hc.covered
    have hhalf := hc.half
    have hD := hc.checkpoint
    have hfirst : first ≤ t.reached historyName + 1 := hfits.next (show historyName ∈ gapless by decide)
    have hlast : last ≤ t.reached eventsName := hfits.recorded rfl
    rw [hD] at hfirst
    rw [hc.eventCheckpoint] at hlast
    refine (range_effect hc hheld hfirst hlast).post ?_
    rintro _ s ⟨rows, hrows, hlegible, hcheck, ht, rfl⟩
    have hc' := hc.range_batch hlast hcheck hrows hlegible
    rw [ht]
    refine ⟨⟨⟨C, hs.frame ?_ ?_ rfl rfl⟩, _, E, hc'⟩, fun name _ => ?_, fun _ => ?_⟩
    · exact checkpoint?_advance_isSome last hs.blockCheckpoint
    · exact checkpoint?_advance_of_ne (show totalName ≠ historyName by decide) last
    · exact reached_le_advance rfl hcheck (by omega) (by omega) name
    · exact (le_max_right _ _).trans hc'.checkpoint.ge

/-! ## Start-up -/

/-- The tables after start-up on an empty database. -/
def booted (genesis : Genesis) : Tables where
  checkpoints := names.map fun name => ⟨name, 0⟩
  totals := [genesis.point]
  history := [genesis.historyPoint]

/-- **Start-up on an empty database** sets up what the four indexers need. -/
theorem quartet_init (schedule : Schedule) :
    Ends (At {} l) ((quartet feed genesis schedule).init)
      (fun _ (s : Session γ) => At (booted genesis) ⟨Word.low genesis.amount⟩ s) fun _ => True := by
  have hinit : (quartet (γ := γ) feed genesis schedule).init = (do
      (Session.loop schedule).checkpoints.setup blocksName
      (Session.loop schedule).checkpoints.setup eventsName
      (Session.loop schedule).checkpoints.setup totalName
      (total feed genesis).init
      (Session.loop schedule).checkpoints.setup historyName
      (history genesis).init) := by
    simp only [Fleet.init, quartet, each, bind_assoc, bind_pure_unit, blocks, events]
    rfl
  rw [hinit]
  refine ((setup_ends schedule blocksName).fault fun _ _ => trivial).bind fun _ => ?_
  refine ((setup_ends schedule eventsName).fault fun _ _ => trivial).bind fun _ => ?_
  refine ((setup_ends schedule totalName).fault fun _ _ => trivial).bind fun _ => ?_
  have htotal : ∀ {t : Tables}, t.totals = [] → Ends (At t l) (total (γ := γ) feed genesis).init
      (fun _ => At { t with totals := [genesis.point] } ⟨Word.low genesis.amount⟩) fun _ => True := by
    intro t ht
    refine ((onStore_ends (write_ends _)).fault fun _ _ => trivial).bind fun _ => ?_
    refine ((onStore_ends (query_ends _)).fault fun _ _ => trivial).bind fun latest => Ends.update ?_
    rintro s ⟨⟨rfl, hs⟩, -⟩
    refine ⟨?_, ?_⟩
    · rw [show s.database.tables = _ from hs, ht]
      rfl
    · rw [ht]
      simp [Keyed.keep, Keyed.get?, leading?, readBackPoint, Genesis.point]
  refine (htotal rfl).bind fun _ => ?_
  refine ((setup_ends schedule historyName).fault fun _ _ => trivial).bind fun _ => ?_
  exact History.init_ends.fault fun _ _ => trivial

theorem joint_booted (hheld : Held chain genesis) : Joint chain genesis (booted genesis) ⟨Word.low genesis.amount⟩ := by
  obtain ⟨h₀, h₁⟩ : 0 ≤ genesis.amount ∧ genesis.amount < 0x80000000 := hheld.amounts 0 (by decide)
  refine ⟨⟨0, ⟨⟨blocksName, 0⟩, rfl⟩, rfl, by decide, ?_, rfl, (fun _ hb => nomatch hb), by simp⟩, 0, 0, ?_⟩
  · exact Word.low_of_lt (by omega) h₁
  · exact ⟨rfl, rfl, le_rfl, by decide, rfl, (fun _ hb => nomatch hb), .nil hheld.numbered,
      fun h h₁ h₂ => by omega⟩

/-! ## Runs -/

/-- Sessions in which the four indexers find the same. -/
structure Alike (s s' : Session γ) : Prop where
  checkpoints : ∀ name ∈ names, s'.database.tables.checkpoint? name = s.database.tables.checkpoint? name
  blocks : s'.database.tables.consensusBlocks = s.database.tables.consensusBlocks
  events : s'.database.tables.consensusEvents = s.database.tables.consensusEvents
  totals : s'.database.tables.totals = s.database.tables.totals
  history : s'.database.tables.history = s.database.tables.history
  ledger : s'.ledger = s.ledger

/-- **The states of any run** of the four loops: start-up on an empty database, turns of the loops in any order, and
whatever else touches none of their tables, checkpoints and the total. Every turn has a feed and a schedule of its own,
and whatever fails in it, the run goes on. -/
inductive Reaches (chain : ConsensusChain) (genesis : Genesis) : List Position × Session γ → Prop
  | boot {feed : ConsensusFeed} {schedule : Schedule} {s s' : Session γ} : s.database.tables = {} →
      (quartet feed genesis schedule).init s = (.ok (), s') →
      Reaches chain genesis ((quartet (γ := γ) feed genesis schedule).start, s')
  | turn {feed : ConsensusFeed} {schedule : Schedule} {turn : Nat} {now : List Position × Session γ} :
      Reaches chain genesis now → feed.Follows chain → (∀ h, feed.head = .ok h → h < 0x80000000) →
      Reaches chain genesis ((quartet feed genesis schedule).step turn now)
  | elsewhere {positions : List Position} {s s' : Session γ} : Reaches chain genesis (positions, s) → Alike s s' →
      Reaches chain genesis (positions, s')

theorem Reaches.turns {now : List Position × Session γ} (h : Reaches chain genesis now) (hf : feed.Follows chain)
    (hhead : ∀ h, feed.head = .ok h → h < 0x80000000) (schedule : Schedule) (turns : List Nat) :
    Reaches chain genesis ((quartet feed genesis schedule).run turns now) := by
  induction turns generalizing now with
  | nil => exact h
  | cons turn turns ih => exact ih (h.turn hf hhead)

theorem Joint.alike {s s' : Session γ} (hj : Joint chain genesis s.database.tables s.ledger) (h : Alike s s') :
    (pact chain genesis).inv s' ∧ (pact chain genesis).later s s' := by
  obtain ⟨C, hs⟩ := hj.total
  obtain ⟨D, E, hc⟩ := hj.history
  have hreached : ∀ name ∈ names, s'.database.tables.reached name = s.database.tables.reached name := fun name hn => by
    rw [Tables.reached, h.checkpoints name hn, Tables.reached]
  refine ⟨⟨⟨C, ?_⟩, D, E, ?_⟩, fun name hn => ?_⟩
  · rw [h.ledger]
    refine hs.frame ?_ (h.checkpoints totalName (by decide)) h.totals h.blocks
    rw [h.checkpoints blocksName (by decide)]
    exact hs.blockCheckpoint
  · exact hc.frame h.history h.events h.blocks (hreached historyName (by decide)) (hreached eventsName (by decide))
  · exact (hreached name (List.mem_cons_of_mem _ hn)).ge

/-- **In any run the pact stands.** -/
theorem Reaches.stands (hheld : Held chain genesis) {now : List Position × Session γ} (h : Reaches chain genesis now) :
    (pact chain genesis).Stands names now := by
  induction h with
  | @boot feed schedule s s' ht hinit =>
    obtain ⟨ht', hl⟩ := (quartet_init (l := s.ledger) schedule).of_ok ⟨ht, rfl⟩ hinit
    refine ⟨?_, fun turn name p _ hp => ?_⟩
    · change Joint chain genesis s'.database.tables s'.ledger
      rw [ht', hl]
      exact joint_booted hheld
    · obtain ⟨ix, -, rfl⟩ := List.mem_map.mp (List.mem_of_getElem? hp)
      trivial
  | @turn feed schedule turn now _ hf hhead ih =>
    refine Pact.Stands.step (f := quartet feed genesis schedule) ih (fun ix hix => ?_) turn
    rcases List.mem_cons.mp hix with rfl | hix
    · exact blocks_kept schedule hf hhead
    rcases List.mem_cons.mp hix with rfl | hix
    · exact events_kept schedule hf hhead
    rcases List.mem_cons.mp hix with rfl | hix
    · exact total_kept schedule hf hhead
    · rw [List.mem_singleton.mp hix]
      exact history_kept schedule hheld
  | elsewhere _ halike ih =>
    obtain ⟨hj, hlater⟩ := Joint.alike ih.inv halike
    exact ih.move hj hlater

/-! ## The difference -/

/-- A change that only the total counts: a successful one that the history starts after, or that is not carried out by
its own delegator, or that carries an error code. -/
def Strays (genesis : Genesis) (h : Nat) (e : EventRecord) : Prop :=
  (e.kind = "delegate_success" ∨ e.kind = "undelegate_success") ∧
    (h ≤ genesis.block ∨ e.isOwn = false ∨ e.hasCode = true)

/-- A change that only the history counts: a failed one that is carried out by its own delegator and carries no error
code. -/
def Falls (genesis : Genesis) (h : Nat) (e : EventRecord) : Prop :=
  (e.kind = "delegate_failure" ∨ e.kind = "undelegate_failure") ∧ genesis.block < h ∧ e.isOwn = true ∧ e.hasCode = false

instance (h : Nat) (e : EventRecord) : Decidable (Strays genesis h e) := inferInstanceAs (Decidable (_ ∧ _))

instance (h : Nat) (e : EventRecord) : Decidable (Falls genesis h e) := inferInstanceAs (Decidable (_ ∧ _))

theorem net_eq_zero {e : EventRecord} (h : ¬(e.kind = "delegate_success" ∨ e.kind = "undelegate_success")) :
    net e = 0 := by
  rw [not_or] at h
  rw [net, if_neg h.1, if_neg h.2]

theorem missed_eq_zero {e : EventRecord} (h : ¬(e.kind = "delegate_failure" ∨ e.kind = "undelegate_failure")) :
    missed e = 0 := by
  rw [not_or] at h
  rw [missed, if_neg h.1, if_neg h.2]

/-- **One event**: what it adds to the total and not to the history. -/
theorem net_sub_eq (genesis : Genesis) (h : Nat) (e : EventRecord) :
    (net e - if genesis.block < h ∧ e.isOwn = true ∧ e.hasCode = false then net e + missed e else 0) =
      (if Strays genesis h e then net e else 0) - if Falls genesis h e then missed e else 0 := by
  have hstrays : (if Strays genesis h e then net e else 0) =
      if genesis.block < h ∧ e.isOwn = true ∧ e.hasCode = false then 0 else net e := by
    by_cases hk : e.kind = "delegate_success" ∨ e.kind = "undelegate_success"
    · by_cases hown : genesis.block < h ∧ e.isOwn = true ∧ e.hasCode = false
      · rw [if_pos hown, if_neg]
        rintro ⟨-, hout | hout | hout⟩
        · omega
        · simp [hown.2.1] at hout
        · simp [hown.2.2] at hout
      · rw [if_neg hown, if_pos]
        refine ⟨hk, ?_⟩
        by_contra hall
        simp only [not_or, Nat.not_le, Bool.not_eq_false, Bool.not_eq_true] at hall
        exact hown hall
    · rw [net_eq_zero hk, ite_self, ite_self]
  have hfalls : (if Falls genesis h e then missed e else 0) =
      if genesis.block < h ∧ e.isOwn = true ∧ e.hasCode = false then missed e else 0 := by
    by_cases hk : e.kind = "delegate_failure" ∨ e.kind = "undelegate_failure"
    · simp only [Falls, hk, true_and]
    · rw [missed_eq_zero hk, ite_self, ite_self]
  rw [hstrays, hfalls]
  split <;> omega

/-- What the total counts at a height and the history does not. -/
def strayed (chain : ConsensusChain) (genesis : Genesis) (h : Nat) : Int :=
  netOf ((chain.events h).filter fun e => Strays genesis h e)

/-- What the history counts at a height and the total does not. -/
def fallen (chain : ConsensusChain) (genesis : Genesis) (h : Nat) : Int :=
  (((chain.events h).filter fun e => Falls genesis h e).map missed).sum

/-- What some members of a list add up to. -/
theorem sum_filter (p : EventRecord → Prop) [DecidablePred p] (f : EventRecord → Int) (events : List EventRecord) :
    ((events.filter fun e => p e).map f).sum = (events.map fun e => if p e then f e else 0).sum := by
  rw [List.sum_map_ite]
  simp

/-- **One height**: what it adds to the total and not to the history. -/
theorem net_sub_due (genesis : Genesis) {h : Nat} (hc : chain.Classified h) :
    (chain.net h - if genesis.block < h then (chain.due h).getD 0 else 0) =
      strayed chain genesis h - fallen chain genesis h := by
  have hdue : (if genesis.block < h then (chain.due h).getD 0 else 0) =
      ((chain.events h).map fun e =>
        if genesis.block < h ∧ e.isOwn = true ∧ e.hasCode = false then net e + missed e else 0).sum := by
    rw [ConsensusChain.getD_due hc, sum_filter]
    by_cases hlt : genesis.block < h
    · simp only [hlt, if_true, true_and]
    · simp [hlt]
  rw [hdue, ConsensusChain.net, strayed, fallen, netOf, netOf, sum_filter, sum_filter]
  induction chain.events h with
  | nil => rfl
  | cons e events ih =>
    have hone := net_sub_eq genesis h e
    simp only [List.map_cons, List.sum_cons]
    omega

/-- **All heights**: what they add to the total and not to the history. -/
theorem total_sub_held (hc : ∀ h ∈ Finset.Icc 1 C, chain.Classified h) :
    chain.totalAt genesis.amount C - chain.heldAt genesis C =
      ∑ h ∈ Finset.Icc 1 C, strayed chain genesis h - ∑ h ∈ Finset.Icc 1 C, fallen chain genesis h := by
  have hheights : Finset.Ioc genesis.block C = (Finset.Icc 1 C).filter fun h => genesis.block < h := by
    ext h
    simp only [Finset.mem_Ioc, Finset.mem_filter, Finset.mem_Icc]
    omega
  calc chain.totalAt genesis.amount C - chain.heldAt genesis C
      = ∑ h ∈ Finset.Icc 1 C, (chain.net h - if genesis.block < h then (chain.due h).getD 0 else 0) := by
        rw [ConsensusChain.totalAt_eq, ConsensusChain.heldAt_eq, hheights, Finset.sum_filter, Finset.sum_sub_distrib,
          add_sub_add_left_eq_sub]
    _ = ∑ h ∈ Finset.Icc 1 C, (strayed chain genesis h - fallen chain genesis h) :=
        Finset.sum_congr rfl fun h hh => net_sub_due genesis (hc h hh)
    _ = _ := Finset.sum_sub_distrib ..

theorem strayed_eq_zero {h : Nat} (hno : ∀ e ∈ chain.events h, ¬ Strays genesis h e) : strayed chain genesis h = 0 := by
  rw [strayed, List.filter_eq_nil_iff.mpr (by simpa using hno)]
  rfl

theorem fallen_eq_zero {h : Nat} (hno : ∀ e ∈ chain.events h, ¬ Falls genesis h e) : fallen chain genesis h = 0 := by
  rw [fallen, List.filter_eq_nil_iff.mpr (by simpa using hno)]
  rfl

/-- The amount of a change that only the total counts is a numeral. -/
theorem Strays.readable {h : Nat} {e : EventRecord} (hs : Strays genesis h e) (hr : Readable e) :
    ∃ n, readAmount (amountText e) = .ok n := by
  by_cases hempty : (amountText e).isEmpty = true
  · exact ⟨0, by rw [readAmount, if_pos hempty]⟩
  · refine hr ?_
    rw [carries, Bool.and_eq_true, Bool.or_eq_true, beq_iff_eq, beq_iff_eq]
    exact ⟨hs.1, by simpa using hempty⟩

/-- The amount of a change that only the history counts is a numeral. -/
theorem Falls.readable (hc : Chronicled chain genesis C E t) {h : Nat} (hh : h ∈ Finset.Icc 1 C) {e : EventRecord}
    (he : e ∈ chain.events h) (hf : Falls genesis h e) : ∃ n, readAmount (amountText e) = .ok n := by
  obtain ⟨hkind, hblock, hown, hcode⟩ := hf
  have hcovered := hc.covered
  rw [Finset.mem_Icc] at hh
  have hbase : Classify.baseKind? e.kind = some .stake ∨ Classify.baseKind? e.kind = some .unstake :=
    hkind.imp (fun h => Classify.baseKind?_stake.mpr (.inr h)) fun h => Classify.baseKind?_unstake.mpr (.inr h)
  have hrows := (hc.recorded.complete h (Finset.mem_Icc.mpr (by omega))).1.rows_eq
  obtain ⟨r, hr, hne, hamount⟩ := exists_change hown hcode hbase he hrows
  rw [← hamount]
  exact hc.legible h hblock hh.2 r hr hne

/-- **The history checks the total**, in every state that a run of the four loops reaches. When both stand at `C`, the
total has more than the last row of the history what the changes are worth that only the total counts, less what those
are worth that only the history does. They agree when there are no such changes up to `C`. The amounts of all such
changes are numerals. -/
theorem totals_differ (hheld : Held chain genesis) {now : List Position × Session γ} (h : Reaches chain genesis now)
    (htotal : now.2.database.tables.reached totalName = C) (hhistory : now.2.database.tables.reached historyName = C) :
    ∃ row ∈ now.2.database.tables.history,
      (∀ r ∈ now.2.database.tables.history, r ≠ row → r.block < row.block) ∧
      now.2.ledger.total - row.amount =
        ∑ h ∈ Finset.Icc 1 C, strayed chain genesis h - ∑ h ∈ Finset.Icc 1 C, fallen chain genesis h ∧
      ((∀ h ∈ Finset.Icc 1 C, ∀ e ∈ chain.events h, ¬ Strays genesis h e ∧ ¬ Falls genesis h e) →
        now.2.ledger.total = row.amount) ∧
      ∀ h ∈ Finset.Icc 1 C, ∀ e ∈ chain.events h, Strays genesis h e ∨ Falls genesis h e →
        ∃ n, readAmount (amountText e) = .ok n := by
  obtain ⟨hj, -⟩ := h.stands hheld
  obtain ⟨D, hs⟩ := hj.total
  obtain ⟨D', E, hc⟩ := hj.history
  obtain rfl : D = C := (reached_of_some hs.checkpoint).symm.trans htotal
  obtain rfl : D' = D := hc.checkpoint.symm.trans hhistory
  have hcovered := hc.covered
  have hclassified : ∀ h ∈ Finset.Icc 1 D', chain.Classified h := fun h hh => by
    rw [Finset.mem_Icc] at hh
    exact (hc.recorded.complete h (Finset.mem_Icc.mpr (by omega))).1
  obtain ⟨hmem, hmax, hamount, -⟩ := chain.annals_latest genesis D'
  have hdiff : now.2.ledger.total - (chain.latest genesis D').amount =
      ∑ h ∈ Finset.Icc 1 D', strayed chain genesis h - ∑ h ∈ Finset.Icc 1 D', fallen chain genesis h := by
    rw [hs.total, hamount]
    exact total_sub_held hclassified
  refine ⟨chain.latest genesis D', ?_, fun r hr hne => ?_, hdiff, fun hno => ?_, fun h hh e he hor => ?_⟩
  · rw [hc.rows]
    exact hmem
  · rw [hc.rows] at hr
    refine (hmax r hr).lt_of_ne fun hblock => hne ?_
    exact List.inj_on_of_nodup_map (ConsensusChain.nodup_annals_block D') hr hmem hblock
  · rw [Finset.sum_eq_zero fun h hh => strayed_eq_zero fun e he => (hno h hh e he).1,
      Finset.sum_eq_zero fun h hh => fallen_eq_zero fun e he => (hno h hh e he).2] at hdiff
    omega
  · rcases hor with hstrays | hfalls
    · exact hstrays.readable (hs.readable h hh e he)
    · exact hfalls.readable hc hh he

/-! ## A run -/

/-- A delegation of 3 on behalf of another at height 1, and a failed one of 4 at height 2. -/
def splitChain : ConsensusChain where
  events h :=
    if h = 1 then
      [⟨"delegate_success", [⟨"amount", "3"⟩, ⟨"delegator_addr", "0xaa"⟩, ⟨"sender_address", "BB"⟩]⟩]
    else if h = 2 then
      [⟨"delegate_failure", [⟨"amount", "4"⟩, ⟨"delegator_addr", "0xaa"⟩, ⟨"sender_address", "AA"⟩]⟩]
    else []
  time _ := 100
  time_nonneg := ConsensusChain.still_nonneg
  time_lt := ConsensusChain.still_lt

/-- The first amount is 10, before all blocks. -/
def splitGenesis : Genesis := ⟨10, 50, 0⟩

/-- A feed of this chain that never fails. -/
def splitFeed : ConsensusFeed where
  head := .ok 2
  block h := .ok ⟨h, "", "", splitChain.time h⟩
  events h := .ok (splitChain.events h)
  commit _ := .ok []
  validators _ _ _ := .ok ⟨[], 0⟩

/-- The fleet of this feed, which works off one height at a time. -/
def splitFleet : Fleet (Session Unit) := quartet splitFeed splitGenesis ⟨0, 1, 1⟩

/-- Start-up, and turns in which total and history work off height 1 before the blocks of height 2 are there. -/
def splitRun : List Position × Session Unit :=
  splitFleet.run [0, 1, 0, 1, 2, 3, 2, 3, 0, 1, 2, 3, 2, 3, 2, 3]
    (splitFleet.start, (splitFleet.init { database := {}, cache := (), ledger := ⟨0⟩ }).2)

theorem split_held : Held splitChain splitGenesis := by
  have hlow : splitChain.heldAt splitGenesis 1 = 10 ∧ splitChain.heldAt splitGenesis 2 = 14 := by
    constructor <;> cbv
  have hhigh : ∀ n, splitChain.heldAt splitGenesis (n + 2) = 14 := by
    intro n
    induction n with
    | zero => exact hlow.2
    | succ n ih =>
      have hevents : splitChain.events (n + 3) = [] := by simp [splitChain]
      have hdue : splitChain.due (n + 3) = none := by
        simp [ConsensusChain.due, ConsensusChain.rows, hevents, rowsOfBlock, rowsFrom, Except.toOption, dueOf]
      rw [ConsensusChain.heldAt, ih, hdue]
      simp
  refine ⟨by decide, fun b _ => ?_, fun h => ?_⟩
  · rcases b with _ | _ | n
    · decide
    · simp [hlow.1]
    · simp [hhigh n]
  · simp only [splitChain]
    split_ifs <;> decide

theorem splitRun_reaches : Reaches splitChain splitGenesis splitRun := by
  have hf : splitFeed.Follows splitChain := by
    refine ⟨fun _ _ hl => (Except.ok.inj hl).symm, fun _ _ hb => ?_⟩
    cases hb
    exact ⟨rfl, rfl⟩
  have hhead : ∀ h, splitFeed.head = .ok h → h < 0x80000000 := by
    rintro _ ⟨⟩
    decide
  have hinit : splitFleet.init { database := {}, cache := (), ledger := ⟨0⟩ } = (.ok (), _) := Prod.ext (by rfl) rfl
  have hboot : Reaches splitChain splitGenesis (splitFleet.start, _) := .boot (by rfl) hinit
  exact hboot.turns hf hhead _ _

/-- The run is exact: 3 that only the total counts, and 4 that only the history does. -/
theorem splitRun_differs :
    splitRun.2.ledger.total = 13 ∧ splitRun.2.database.tables.history = [⟨0, 50, 10⟩, ⟨2, 100, 14⟩] ∧
      ∃ row ∈ splitRun.2.database.tables.history,
        splitRun.2.ledger.total - row.amount = ∑ h ∈ Finset.Icc 1 2, strayed splitChain splitGenesis h -
          ∑ h ∈ Finset.Icc 1 2, fallen splitChain splitGenesis h := by
  obtain ⟨row, hrow, -, hdiff, -⟩ := totals_differ split_held splitRun_reaches
    (show splitRun.2.database.tables.reached totalName = 2 by cbv)
    (show splitRun.2.database.tables.reached historyName = 2 by cbv)
  exact ⟨by cbv, by cbv, row, hrow, hdiff⟩

end StakeTrail.Indexing.CrossCheck
