import Mathlib
import StakeTrail.Indexing.Consensus
import StakeTrail.Indexing.Execution
import StakeTrail.Proofs.Store.Atomic
import StakeTrail.Proofs.Store.Keeps

/-!
# The cache follows the tables

Three indexers drop cached responses. None of them ever asks the cache, and what the cache answers to a deletion is
thrown away: from sessions that differ in nothing but their caches, they end alike (`Agrees`).

What a range of rewards commits is planned by its blocks (`planned`); of these payouts, those up to the first that fails
are `committed`, and with a cache in memory the keys of just their addresses are dropped (`cover_leaves`). Uptimes and
votes drop all listings of validators when their one commit succeeds (`DropsUnder`).

**The main statement** (`cache_follows_tables`) puts both together.
-/

namespace StakeTrail.Indexing

open StakeTrail.Action Store Session Reward

variable {γ δ α β : Type}

/-! ## Sessions that differ in their caches -/

/-- A session without its cache. -/
def Session.uncached (s : Session γ) : Session Unit where
  database := s.database
  cache := ()
  ledger := s.ledger
  counts := s.counts
  cancelled := s.cancelled

/-- **Actions that agree** in all but the cache: from sessions that differ in nothing else, they end alike. -/
def Agrees (x : Action (Session γ) α) (y : Action (Session δ) α) : Prop :=
  ∀ s s', s.uncached = s'.uncached → (x s).1 = (y s').1 ∧ (x s).2.uncached = (y s').2.uncached

namespace Agrees

protected theorem ofExcept (r : Except Fault α) :
    Agrees (ofExcept r : Action (Session γ) α) (ofExcept r : Action (Session δ) α) := fun _ _ h => ⟨rfl, h⟩

protected theorem pure (a : α) : Agrees (pure a : Action (Session γ) α) (pure a : Action (Session δ) α) :=
  .ofExcept (.ok a)

protected theorem bind {x : Action (Session γ) α} {y : Action (Session δ) α} {f : α → Action (Session γ) β}
    {g : α → Action (Session δ) β} (hx : Agrees x y) (hf : ∀ a, Agrees (f a) (g a)) : Agrees (x >>= f) (y >>= g) := by
  intro s s' h
  obtain ⟨hresult, hrest⟩ := hx s s' h
  rw [bind_apply, bind_apply]
  rcases hxs : x s with ⟨e | a, t⟩ <;> rcases hys : y s' with ⟨e' | b, t'⟩ <;> rw [hxs, hys] at hresult hrest <;>
    cases hresult
  · exact ⟨rfl, hrest⟩
  · exact hf a t t' hrest

protected theorem onStore (x : Action Database α) :
    Agrees (onStore x : Action (Session γ) α) (onStore x : Action (Session δ) α) := by
  intro s s' h
  simp only [uncached, Session.mk.injEq] at h
  simp [onStore, within, uncached, h]

/-- Of the cache nothing is told but that the action is over. -/
protected theorem onCache {x : Action γ Unit} {y : Action δ Unit} (hx : ∀ c, (x c).1 = .ok ())
    (hy : ∀ c, (y c).1 = .ok ()) : Agrees (onCache x) (onCache y) :=
  fun s s' h => ⟨(hx s.cache).trans (hy s'.cache).symm, h⟩

end Agrees

theorem dropKeys_fst (cache : Cache γ) (keys : List String) (c : γ) : (cache.dropKeys keys c).1 = .ok () := by
  unfold Cache.dropKeys
  split
  · rfl
  · rfl

theorem dropUnder_fst (cache : Cache γ) (root : String) (c : γ) : (cache.dropUnder root c).1 = .ok () := rfl

namespace Execution

theorem commitPending_agrees (cache : Cache γ) (cache' : Cache δ) (pending : Accumulator) (height : Nat) :
    Agrees (commitPending cache pending height) (commitPending cache' pending height) :=
  (Agrees.onStore _).bind fun _ => .onCache (dropKeys_fst cache _) (dropKeys_fst cache' _)

theorem collect_agrees (cache : Cache γ) (cache' : Cache δ) (flushSize : Nat) :
    ∀ (blocks : List ExecutionBlock) (pending : Accumulator),
      Agrees (collect cache flushSize pending blocks) (collect cache' flushSize pending blocks)
  | [], pending => .pure pending
  | block :: blocks, pending => by
    unfold collect
    dsimp only
    split
    · exact (commitPending_agrees cache cache' _ _).bind fun _ => collect_agrees cache cache' flushSize blocks []
    · exact collect_agrees cache cache' flushSize blocks _

end Execution

/-- The indexers that work on a cache. -/
inductive Caching
  | rewards (feed : ExecutionFeed) (flushSize : Nat)
  | uptimes (feed : ConsensusFeed)
  | votes (feed : ConsensusFeed) (window : Nat)

/-- The indexer with a cache. -/
def Caching.indexer (cache : Cache γ) : Caching → Indexer (Session γ)
  | rewards feed flushSize => Execution.rewards feed cache flushSize
  | uptimes feed => Consensus.uptimes feed cache
  | votes feed window => Consensus.votes feed cache window

/-- **No indexer is steered by its cache.** -/
theorem cover_agrees (u : Caching) (cache : Cache γ) (cache' : Cache δ) (first last : Nat) :
    Agrees ((u.indexer cache).cover first last) ((u.indexer cache').cover first last) := by
  have hunder : Agrees (onCache (cache.dropUnder Cache.validatorsRoot))
      (onCache (cache'.dropUnder Cache.validatorsRoot)) :=
    .onCache (dropUnder_fst cache _) (dropUnder_fst cache' _)
  cases u with
  | rewards feed flushSize =>
    refine (Agrees.ofExcept _).bind fun blocks => ?_
    refine (Execution.collect_agrees cache cache' flushSize blocks []).bind fun pending => ?_
    exact Execution.commitPending_agrees cache cache' pending last
  | uptimes feed =>
    refine (Agrees.ofExcept _).bind fun found => (Agrees.ofExcept _).bind fun tracker => ?_
    exact (Agrees.onStore _).bind fun _ => hunder
  | votes feed window =>
    refine (Agrees.ofExcept _).bind fun found => (Agrees.ofExcept _).bind fun rows => ?_
    exact (Agrees.ofExcept _).bind fun keepFrom => (Agrees.onStore _).bind fun _ => hunder

/-! ## What is dropped from a cache in memory -/

/-- The entries whose keys are not stale. -/
def without (stale : String → Bool) (entries : Cache.Memory) : Cache.Memory := entries.filter fun e => !stale e.key

theorem without_without (stale stale' : String → Bool) (entries : Cache.Memory) :
    without stale' (without stale entries) = without (fun key => stale key || stale' key) entries := by
  simp [without, List.filter_filter, Bool.and_comm]

theorem without_none (entries : Cache.Memory) : without (fun _ => false) entries = entries := by
  simp [without]

theorem dropKeys_memory (keys : List String) (entries : Cache.Memory) :
    Cache.memory.dropKeys keys entries = (.ok (), without keys.contains entries) := by
  unfold Cache.dropKeys without
  rcases keys with _ | ⟨k, keys⟩
  · simp
  · rfl

namespace Execution

/-! ### Rewards -/

/-- What one commit of rewards pays out, and the height that it moves the checkpoint to. -/
structure Payout where
  deltas : List Delta
  height : Nat

/-- Whether a key is that of the rewards of an address in some payouts. -/
def concerns (payouts : List Payout) (key : String) : Bool :=
  payouts.any fun b => (b.deltas.map fun d => Cache.rewardKey d.address).contains key

theorem concerns_singleton (b : Payout) :
    concerns [b] = (b.deltas.map fun d => Cache.rewardKey d.address).contains := by
  funext key
  simp [concerns]

theorem concerns_cons (b : Payout) (rest : List Payout) :
    concerns (b :: rest) = fun key => concerns [b] key || concerns rest key := by
  funext key
  simp [concerns]

theorem concerns_iff {payouts : List Payout} {key : String} :
    concerns payouts key = true ↔ ∃ b ∈ payouts, ∃ d ∈ b.deltas, Cache.rewardKey d.address = key := by
  simp [concerns]

/-- Commits a payout. -/
def Payout.commit (b : Payout) : Action Database Unit := Commit.rewards rewardName b.deltas b.height

/-- Commits a payout and drops the cached rewards of its addresses. -/
def Payout.settle (cache : Cache γ) (b : Payout) : Action (Session γ) Unit := do
  onStore b.commit
  onCache (cache.dropKeys (b.deltas.map fun d => Cache.rewardKey d.address))

/-- **What blocks are to pay**: a payout whenever enough addresses are pending, and one for the rest at the last
height. -/
def planned (flushSize last : Nat) : Accumulator → List ExecutionBlock → List Payout
  | pending, [] => [⟨pending.drained, last⟩]
  | pending, block :: rest =>
    let pending := pending.addAll block.height block.withdrawals
    if pending.isFull flushSize then ⟨pending.drained, block.height⟩ :: planned flushSize last [] rest
    else planned flushSize last pending rest

/-- The payouts of a range, if its blocks can be had. -/
def plan (feed : ExecutionFeed) (flushSize first last : Nat) : Except Fault (List Payout) :=
  (Feed.gather first last feed.block).map (planned flushSize last [])

/-- **The payouts that are committed**: those up to the first whose commit fails. -/
def committed : List Payout → Database → List Payout
  | [], _ => []
  | b :: rest, d =>
    match b.commit d with
    | (.ok (), d') => b :: committed rest d'
    | (.error _, _) => []

/-- Collecting and committing the rest is settling what is planned. -/
theorem collect_eq (cache : Cache γ) (flushSize last : Nat) : ∀ (blocks : List ExecutionBlock) (pending : Accumulator),
    (collect cache flushSize pending blocks >>= fun rest => commitPending cache rest last) =
      each (Payout.settle cache) (planned flushSize last pending blocks)
  | [], pending => by
    rw [collect, planned, each, each, pure_bind]
    exact (bind_pure (m := Action (Session γ)) _).symm
  | block :: blocks, pending => by
    unfold collect planned
    dsimp only
    split
    · rw [bind_assoc, each]
      simp only [collect_eq cache flushSize last blocks []]
      rfl
    · exact collect_eq cache flushSize last blocks _

theorem cover_eq (feed : ExecutionFeed) (cache : Cache γ) (flushSize first last : Nat) (s : Session γ) :
    (rewards feed cache flushSize).cover first last s =
      match plan feed flushSize first last with
      | .ok payouts => each (Payout.settle cache) payouts s
      | .error e => (.error e, s) := by
  unfold plan
  show (ofExcept (Feed.gather first last feed.block) >>= fun blocks =>
    collect cache flushSize [] blocks >>= fun rest => commitPending cache rest last) s = _
  simp only [collect_eq, bind_apply, ofExcept_apply]
  rcases Feed.gather first last feed.block with e | blocks <;> rfl

/-- A payout whose commit fails touches neither tables nor cache. -/
theorem settle_error (cache : Cache γ) {b : Payout} {s : Session γ} {e : Fault} {d : Database}
    (h : b.commit s.database = (.error e, d)) :
    b.settle cache s = (.error e, { s with database := d }) ∧ d.tables = s.database.tables := by
  refine ⟨by simp [Payout.settle, bind_apply, onStore, within, h], ?_⟩
  have hfails : ((Batch.rewards b.deltas).commit rewardName b.height s.database).1 = .error e := congrArg Prod.fst h
  have htables : (b.commit s.database).2.tables = s.database.tables := commit_error hfails
  rwa [h] at htables

/-- A payout that is committed drops the keys of its addresses. -/
theorem settle_ok {b : Payout} {s : Session Cache.Memory} {d : Database} (h : b.commit s.database = (.ok (), d)) :
    b.settle .memory s = (.ok (), { s with database := d, cache := without (concerns [b]) s.cache }) := by
  simp [Payout.settle, bind_apply, onStore, onCache, within, h, dropKeys_memory, concerns_singleton]

/-- **With a cache in memory**, the tables are those of the payouts that are committed, and just the keys of their
addresses are dropped. -/
theorem settle_memory : ∀ (payouts : List Payout) (s : Session Cache.Memory),
    (each (Payout.settle .memory) payouts s).2.cache = without (concerns (committed payouts s.database)) s.cache ∧
    ((each (Payout.settle .memory) payouts s).1 = .ok () ↔ committed payouts s.database = payouts) ∧
    ∃ d, each Payout.commit (committed payouts s.database) s.database = (.ok (), d) ∧
      (each (Payout.settle .memory) payouts s).2.database.tables = d.tables
  | [], s => ⟨(without_none s.cache).symm, by simp [each, committed], s.database, rfl, rfl⟩
  | b :: rest, s => by
    rw [each, bind_apply, committed]
    rcases hb : b.commit s.database with ⟨e | ⟨⟩, d⟩
    · -- the failed commit ends the call: what was dropped for earlier payouts stays dropped
      obtain ⟨hsettle, htables⟩ := settle_error .memory hb
      rw [hsettle]
      exact ⟨(without_none s.cache).symm, by simp, s.database, rfl, htables⟩
    · obtain ⟨hcache, hok, d', hcommit, htables⟩ :=
        settle_memory rest { s with database := d, cache := without (concerns [b]) s.cache }
      rw [settle_ok hb]
      refine ⟨?_, ?_, d', ?_, htables⟩
      · rw [hcache, without_without]
        simp only [← concerns_cons]
      · simpa using hok
      · rw [each, bind_apply, hb]
        exact hcommit

/-- Payouts leave the rows of all other addresses. -/
theorem commits_keep {a : String} {payouts : List Payout} (h : concerns payouts (Cache.rewardKey a) = false)
    (row : Option RewardRow) :
    Database.Keeps (fun t => Keyed.get? RewardRow.address a t.rewards = row) (each Payout.commit payouts) := by
  refine .each fun b hb => .batch (fun t ht => ht) (.each fun d hd => .addReward fun amount height t ht => ?_)
  have hne : d.address ≠ a := by
    rintro rfl
    have hconcerns : concerns payouts (Cache.rewardKey d.address) = true :=
      concerns_iff.mpr ⟨b, hb, d, hd, rfl⟩
    rw [h] at hconcerns
    cases hconcerns
  rw [Keyed.get?_put, if_neg hne, ht]

/-- **What a call that commits some payouts leaves**: their tables, and all cached responses but those of their
addresses, among which is every address whose row has changed. -/
structure Leaves (payouts : List Payout) (s s' : Session Cache.Memory) : Prop where
  tables : ∃ d, each Payout.commit payouts s.database = (.ok (), d) ∧ s'.database.tables = d.tables
  cache : s'.cache = without (concerns payouts) s.cache
  changed : ∀ a, Keyed.get? RewardRow.address a s'.database.tables.rewards ≠
    Keyed.get? RewardRow.address a s.database.tables.rewards → concerns payouts (Cache.rewardKey a) = true

/-- The payouts that a call commits. -/
def paidOut (feed : ExecutionFeed) (flushSize first last : Nat) (d : Database) : List Payout :=
  match plan feed flushSize first last with
  | .ok payouts => committed payouts d
  | .error _ => []

theorem Leaves.of_tables {payouts : List Payout} {s s' : Session Cache.Memory}
    (htables : ∃ d, each Payout.commit payouts s.database = (.ok (), d) ∧ s'.database.tables = d.tables)
    (hcache : s'.cache = without (concerns payouts) s.cache) : Leaves payouts s s' := by
  refine ⟨htables, hcache, fun a hchanged => ?_⟩
  obtain ⟨d, hcommit, hd⟩ := htables
  by_contra hno
  refine hchanged ?_
  rw [hd]
  exact (commits_keep (Bool.eq_false_iff.mpr hno) _).of_ok rfl hcommit

/-- **A range of rewards**, however far it comes. -/
theorem cover_leaves (feed : ExecutionFeed) (flushSize first last : Nat) (s : Session Cache.Memory) :
    Leaves (paidOut feed flushSize first last s.database) s ((rewards feed .memory flushSize).cover first last s).2 ∧
    (((rewards feed .memory flushSize).cover first last s).1 = .ok () ↔
      plan feed flushSize first last = .ok (paidOut feed flushSize first last s.database)) := by
  rw [cover_eq, paidOut]
  rcases plan feed flushSize first last with e | payouts
  · exact ⟨.of_tables ⟨s.database, rfl, rfl⟩ (without_none s.cache).symm, by simp⟩
  · obtain ⟨hcache, hok, htables⟩ := settle_memory payouts s
    exact ⟨.of_tables htables hcache, by simp [hok, eq_comm]⟩

end Execution

/-! ### Listings of validators -/

/-- Whether a key begins with a text. -/
def isUnder (root key : String) : Bool := decide (root.toList <+: key.toList)

/-- **An action that drops what is under a key** when it succeeds, and nothing when it fails. -/
def DropsUnder (root : String) (x : Action (Session Cache.Memory) Unit) : Prop :=
  ∀ s, (x s).2.cache =
    match (x s).1 with
    | .ok () => without (isUnder root) s.cache
    | .error _ => s.cache

namespace DropsUnder

variable {root : String}

protected theorem ofExcept_bind (r : Except Fault α) {f : α → Action (Session Cache.Memory) Unit}
    (hf : ∀ a, DropsUnder root (f a)) : DropsUnder root (ofExcept r >>= f) := by
  intro s
  rcases r with e | a
  · rfl
  · exact hf a s

protected theorem store (x : Action Database Unit) :
    DropsUnder root (onStore x >>= fun _ => onCache (Cache.memory.dropUnder root)) := by
  have hprefix : ∀ key : String, isUnder root key = root.toList.isPrefixOf key.toList := fun key => by
    rw [isUnder, Bool.eq_iff_iff, decide_eq_true_eq, List.isPrefixOf_iff_prefix]
  intro s
  simp only [bind_apply, onStore, within]
  rcases x s.database with ⟨e | ⟨⟩, d⟩
  · rfl
  · simp only [without, hprefix]
    rfl

end DropsUnder

/-! ## The whole -/

/-- **The cache follows the tables and never steers them.**

* From sessions that differ in nothing but their caches, a range of rewards, uptimes or votes ends with the same outcome
  and the same tables and checkpoints, whatever the caches hold and answer, be it nothing but faults.
* With a cache in memory, a range of rewards drops just the keys of the addresses in the payouts that it commits; these
  are all of them when it succeeds, and every address whose row has changed is among them.
* A range of uptimes or votes drops just the listings of validators when it succeeds, and nothing when it fails. -/
theorem cache_follows_tables :
    (∀ (u : Caching) (γ δ : Type) (cache : Cache γ) (cache' : Cache δ) (first last : Nat) (s : Session γ)
      (s' : Session δ), s.uncached = s'.uncached →
        ((u.indexer cache).cover first last s).1 = ((u.indexer cache').cover first last s').1 ∧
        ((u.indexer cache).cover first last s).2.uncached = ((u.indexer cache').cover first last s').2.uncached) ∧
    (∀ (feed : ExecutionFeed) (flushSize first last : Nat) (s : Session Cache.Memory),
      Execution.Leaves (Execution.paidOut feed flushSize first last s.database) s
        ((Execution.rewards feed .memory flushSize).cover first last s).2 ∧
      (((Execution.rewards feed .memory flushSize).cover first last s).1 = .ok () ↔
        Execution.plan feed flushSize first last = .ok (Execution.paidOut feed flushSize first last s.database))) ∧
    (∀ (feed : ConsensusFeed) (first last : Nat),
      DropsUnder Cache.validatorsRoot ((Consensus.uptimes feed .memory).cover first last)) ∧
    ∀ (feed : ConsensusFeed) (window first last : Nat),
      DropsUnder Cache.validatorsRoot ((Consensus.votes feed .memory window).cover first last) := by
  refine ⟨fun u γ δ cache cache' first last => cover_agrees u cache cache' first last, Execution.cover_leaves, ?_, ?_⟩
  · intro feed first last
    exact .ofExcept_bind _ fun found => .ofExcept_bind _ fun tracker => .store _
  · intro feed window first last
    exact .ofExcept_bind _ fun found => .ofExcept_bind _ fun rows => .ofExcept_bind _ fun keepFrom => .store _

/-! ### A range of rewards that is broken off -/

/-- Two heights that pay two addresses. -/
def stingyFeed : ExecutionFeed where
  head := .ok 2
  block h := .ok ⟨h, "", 0, 0, 0, [⟨if h = 1 then "0xa" else "0xb", 5⟩]⟩
  logs _ _ := .ok []

/-- A database that refuses the second commit, with some cached responses. -/
def brokenSession : Session Cache.Memory where
  database := {
    tables := { checkpoints := [⟨Execution.rewardName, 0⟩] }
    refusal := fun n => if n = 6 then some .io else none }
  cache := [⟨"rewards_0xa", "0", false⟩, ⟨"rewards_0xb", "0", false⟩, ⟨"validators___", "", true⟩]
  ledger := ⟨0⟩

/-- The call fails after it paid the first address: its cached rewards are dropped and nothing else. With a cache that
refuses every call the outcome and the rest of the session are the same. -/
theorem brokenSession_followed :
    ((Execution.rewards stingyFeed .memory 1).cover 1 2 brokenSession).1 = .error (.storage foreign) ∧
    ((Execution.rewards stingyFeed .memory 1).cover 1 2 brokenSession).2.cache =
      [⟨"rewards_0xb", "0", false⟩, ⟨"validators___", "", true⟩] ∧
    ((Execution.rewards stingyFeed (Cache.refusing "down") 1).cover 1 2 brokenSession.uncached).1 =
      .error (.storage foreign) ∧
    ((Execution.rewards stingyFeed (Cache.refusing "down") 1).cover 1 2 brokenSession.uncached).2.uncached =
      ((Execution.rewards stingyFeed .memory 1).cover 1 2 brokenSession).2.uncached := by
  have hfails : ((Execution.rewards stingyFeed .memory 1).cover 1 2 brokenSession).1 = .error (.storage foreign) := by
    cbv
  have hpaid : Execution.paidOut stingyFeed 1 1 2 brokenSession.database = [⟨[⟨"0xa", 5, 1⟩], 1⟩] := by cbv
  obtain ⟨hagrees, hrewards, -, -⟩ := cache_follows_tables
  have hsame := hagrees (.rewards stingyFeed 1) Unit Cache.Memory (Cache.refusing "down") .memory 1 2
    brokenSession.uncached brokenSession rfl
  have hcache := (hrewards stingyFeed 1 1 2 brokenSession).1.cache
  rw [hpaid] at hcache
  exact ⟨hfails, hcache.trans (by cbv), hsame.1.trans hfails, hsame.2⟩

end StakeTrail.Indexing
