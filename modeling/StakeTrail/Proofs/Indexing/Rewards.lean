import Mathlib
import StakeTrail.Indexing.Execution
import StakeTrail.Proofs.Chain.Honest
import StakeTrail.Proofs.Indexing.Sessions
import StakeTrail.Proofs.Reward.Books

/-!
# Rewards are exact

Rewards add up, so committing a height twice would count it twice. `Paid pays C t` says that the table holds what the
heights up to the checkpoint `C` pay, no more and no less, and `Pends` that what is collected but not committed is what
the heights after the checkpoint pay. A commit in the middle of a range drains what is pending and moves the checkpoint
to the height that it was collected up to (`commitPending_ends`), so a fault after it loses nothing and repeats nothing.

* `collect_ends` and `rewards_cover_ends` carry this through a range, and `rewards_sustain` through a tick.
* **The main statement** (`rewards_exactly_once`) is about every state that a run reaches: ticks of any loop over any
  feed of the chain, and restarts.
-/

namespace StakeTrail.Indexing

open StakeTrail.Action Store Database Session Reward Execution

variable {γ δ : Type} {pays : Nat → List Withdrawal}

/-! ## What is owed -/

/-- The withdrawals of the heights up to some height, with their heights. -/
def credits (pays : Nat → List Withdrawal) : Nat → List (Nat × Withdrawal)
  | 0 => []
  | h + 1 => credits pays h ++ (pays (h + 1)).map fun w => (h + 1, w)

/-- What an address is owed for the heights up to some height. -/
def owedAt (pays : Nat → List Withdrawal) (C : Nat) (a : String) : Option Share :=
  tally (fun c => payee c.2) (fun c => (c.2.amount, c.1)) a (credits pays C)

/-- What a height pays to an address. -/
def paidTo (pays : Nat → List Withdrawal) (a : String) (h : Nat) : Nat :=
  (((pays h).filter (payee · = a)).map Withdrawal.amount).sum

theorem mem_credits {C h : Nat} {w : Withdrawal} : (h, w) ∈ credits pays C ↔ h ∈ Finset.Icc 1 C ∧ w ∈ pays h := by
  induction C with
  | zero => simp [credits]
  | succ C ih =>
    rw [credits, List.mem_append, ih, Finset.mem_Icc, Finset.mem_Icc]
    constructor
    · rintro (⟨hh, hw⟩ | hm)
      · exact ⟨by omega, hw⟩
      · obtain ⟨w', hw', heq⟩ := List.mem_map.mp hm
        cases heq
        exact ⟨by omega, hw'⟩
    · rintro ⟨hh, hw⟩
      by_cases hC : h = C + 1
      · subst hC
        exact .inr (List.mem_map.mpr ⟨w, hw, rfl⟩)
      · exact .inl ⟨by omega, hw⟩

theorem owedAt_succ (C : Nat) (a : String) :
    owedAt pays (C + 1) a =
      join (owedAt pays C a) (tally payee (fun w => (w.amount, C + 1)) a (pays (C + 1))) := by
  rw [owedAt, credits, tally_append, tally_map]
  rfl

theorem owedAt_eq_none_iff {C : Nat} {a : String} :
    owedAt pays C a = none ↔ ∀ h ∈ Finset.Icc 1 C, ∀ w ∈ pays h, payee w ≠ a := by
  rw [owedAt, tally_eq_none_iff]
  constructor
  · exact fun hno h hh w hw => hno (h, w) (mem_credits.mpr ⟨hh, hw⟩)
  · rintro hno ⟨h, w⟩ hc
    obtain ⟨hh, hw⟩ := mem_credits.mp hc
    exact hno h hh w hw

/-- The height of what is owed is that of the last withdrawal. -/
theorem owedAt_height {C : Nat} {a : String} {s : Share} (h : owedAt pays C a = some s) :
    IsGreatest {h | h ∈ Finset.Icc 1 C ∧ ∃ w ∈ pays h, payee w = a} s.2 := by
  obtain ⟨⟨⟨k, w⟩, hc, ha, hk⟩, hle⟩ := tally_height h
  obtain ⟨hh, hw⟩ := mem_credits.mp hc
  refine ⟨?_, ?_⟩
  · rw [← hk]
    exact ⟨hh, w, hw, ha⟩
  · rintro j ⟨hj, v, hv, hva⟩
    exact hle (j, v) (mem_credits.mpr ⟨hj, hv⟩) hva

theorem join_amount (x y : Option Share) :
    ((join x y).map Prod.fst).getD 0 = (x.map Prod.fst).getD 0 + (y.map Prod.fst).getD 0 := by
  rcases x with _ | ⟨n, h⟩ <;> rcases y with _ | ⟨m, k⟩ <;> simp [join]

/-- The amount that is owed is the sum over the heights. -/
theorem owedAt_amount (C : Nat) (a : String) :
    ((owedAt pays C a).map Prod.fst).getD 0 = ∑ h ∈ Finset.Icc 1 C, paidTo pays a h := by
  induction C with
  | zero => rfl
  | succ C ih => rw [owedAt_succ, join_amount, ih, tally_amount, Finset.sum_Icc_succ_top (by omega), paidTo]

/-! ## Ranges -/

/-- **The table holds what the heights up to the checkpoint pay.** -/
structure Paid (pays : Nat → List Withdrawal) (C : Nat) (t : Tables) : Prop where
  checkpoint : t.checkpoint? rewardName = some ⟨rewardName, C⟩
  half : C < 0x80000000
  booked : Booked (owedAt pays C) t.rewards

/-- **What is pending is what the heights from `c + 1` to `k` pay**, each address once. -/
structure Pends (pays : Nat → List Withdrawal) (c k : Nat) (pending : Accumulator) : Prop where
  le : c ≤ k
  nodup : (pending.map Delta.address).Nodup
  share : ∀ a, join (owedAt pays c a) (share? a pending) = owedAt pays k a

theorem Pends.nil (c : Nat) : Pends pays c c [] :=
  ⟨Nat.le_refl c, List.nodup_nil, fun _ => join_none _⟩

/-- One more block. -/
theorem Pends.addAll {c k : Nat} {pending : Accumulator} (h : Pends pays c k pending) :
    Pends pays c (k + 1) (pending.addAll (k + 1) (pays (k + 1))) := by
  have hle := h.le
  refine ⟨by omega, Accumulator.nodup_addAll h.nodup _ _, fun a => ?_⟩
  rw [Accumulator.share?_addAll, ← join_assoc, h.share, owedAt_succ]

/-- No height that is pending is above that of the last block. -/
theorem Pends.height_le {c k : Nat} {pending : Accumulator} (h : Pends pays c k pending) :
    ∀ d ∈ pending.drained, d.height ≤ k := by
  intro d hd
  have hmem : d ∈ pending := (List.mergeSort_perm pending _).mem_iff.mp hd
  have hshare : share? d.address pending = some d.share := by
    rw [share?, (Keyed.get?_iff h.nodup).mpr ⟨hmem, rfl⟩, Option.map_some]
  have hk := h.share d.address
  rw [hshare] at hk
  rcases ho : owedAt pays c d.address with _ | ⟨n, j⟩ <;> rw [ho] at hk
  · exact (Finset.mem_Icc.mp (owedAt_height hk.symm).1.1).2
  · have hle := (Finset.mem_Icc.mp (owedAt_height hk.symm).1.1).2
    exact Nat.le_trans (Nat.le_max_right j d.height) hle

/-- The tables after a commit of what is pending. -/
theorem Paid.commit {c k : Nat} {t : Tables} {pending : Accumulator} {rows : List RewardRow} (h : Paid pays c t)
    (hp : Pends pays c k pending) (hk : k < 0x80000000)
    (hrows : Booked (fun a => join (owedAt pays c a) (tally Delta.address Delta.share a pending.drained)) rows) :
    Paid pays k (Tables.advance rewardName k { t with rewards := rows }) := by
  have hle := hp.le
  have hhalf := h.half
  have hmax : max c k = k := by omega
  refine ⟨?_, hk, ?_⟩
  · have hcheck : ({ t with rewards := rows } : Tables).checkpoint? rewardName = some ⟨rewardName, c⟩ := h.checkpoint
    have hmoved := checkpoint?_advance hcheck (by omega) (show k < 0x8000000000000000 by omega)
    rwa [hmax] at hmoved
  · have howed : (fun a => join (owedAt pays c a) (tally Delta.address Delta.share a pending.drained)) =
        owedAt pays k := funext fun a => by rw [Accumulator.tally_drained hp.nodup, hp.share]
    rwa [howed] at hrows

/-- **A commit drains what is pending** and moves the checkpoint to the height that it was collected up to. -/
theorem commitPending_ends {c k : Nat} {pending : Accumulator} (cache : Cache γ) (hp : Pends pays c k pending)
    (hk : k < 0x80000000) :
    Ends (fun s : Session γ => Paid pays c s.database.tables) (commitPending cache pending k)
      (fun _ s => Paid pays k s.database.tables) fun s => ∃ c, Paid pays c s.database.tables := by
  intro s hs
  have hheights : ∀ d ∈ pending.drained, d.height < 0x80000000 := fun d hd =>
    Nat.lt_of_le_of_lt (hp.height_le d hd) hk
  have hstore := (onStore_ends (γ := γ) (l := s.ledger) (rewards_ends hs.booked hheights rewardName k)).fault
    (F := fun s' => ∃ c, Paid pays c s'.database.tables) fun s' h => ⟨c, h.1.symm ▸ hs⟩
  refine (hstore.bind fun _ => ?_) s ⟨rfl, rfl⟩
  rintro s' ⟨⟨rows, hrows, hdb⟩, -⟩
  have hpaid : Paid pays k s'.database.tables := by
    rw [show s'.database.tables = _ from hdb]
    exact hs.commit hp hk hrows
  -- the cache may refuse to drop its keys, but it cannot touch the tables
  exact ((onCache_ends (t := s'.database.tables) (l := s'.ledger)).mono (fun _ h => h)
    (fun _ _ h => h.1.symm ▸ hpaid) fun _ h => ⟨k, h.1.symm ▸ hpaid⟩) s' ⟨rfl, rfl⟩

/-- **Collecting**: after each block what is pending is what the heights after the checkpoint pay, whether or not the
block filled the batch. -/
theorem collect_ends (cache : Cache γ) (flushSize : Nat) : ∀ {blocks : List ExecutionBlock} {c k : Nat}
    {pending : Accumulator}, blocks.map (fun b => (b.height, b.withdrawals)) =
      (List.range' (k + 1) blocks.length).map (fun h => (h, pays h)) → k + blocks.length < 0x80000000 →
    Pends pays c k pending →
    Ends (fun s : Session γ => Paid pays c s.database.tables) (collect cache flushSize pending blocks)
      (fun rest s => ∃ c, Paid pays c s.database.tables ∧ Pends pays c (k + blocks.length) rest)
      fun s => ∃ c, Paid pays c s.database.tables
  | [], c, k, pending, _, _, hp => Ends.pure fun s hs => ⟨c, hs, hp⟩
  | b :: blocks, c, k, pending, hb, hk, hp => by
    rw [List.length_cons, List.range'_succ, List.map_cons, List.map_cons, List.cons.injEq, Prod.mk.injEq] at hb
    obtain ⟨⟨hheight, hpays⟩, hblocks⟩ := hb
    rw [List.length_cons] at hk ⊢
    have hlen : k + (blocks.length + 1) = k + 1 + blocks.length := by omega
    rw [hlen] at hk ⊢
    unfold collect
    rw [hheight, hpays]
    dsimp only
    split
    · refine (commitPending_ends cache hp.addAll (by omega)).bind fun _ => ?_
      exact collect_ends cache flushSize hblocks hk (.nil (k + 1))
    · exact collect_ends cache flushSize hblocks hk hp.addAll

/-- **A range right after the checkpoint** is paid as a whole, or up to some height. -/
theorem rewards_cover_ends {feed : ExecutionFeed} (hf : feed.Follows pays) (cache : Cache γ) (flushSize : Nat)
    {c last : Nat} (hc : c < last) (hlast : last < 0x80000000) :
    Ends (fun s : Session γ => Paid pays c s.database.tables) ((rewards feed cache flushSize).cover (c + 1) last)
      (fun _ s => Paid pays last s.database.tables) fun s => ∃ c, Paid pays c s.database.tables := by
  refine (Ends.ofExcept.fault fun s hs => ⟨c, hs⟩).bind fun blocks => Ends.assuming fun hblocks => ?_
  have hmap := Feed.gather_map (f := fun b => (b.height, b.withdrawals)) (g := fun h => (h, pays h))
    (fun h b hb => by rw [(hf.block h b hb).1, (hf.block h b hb).2]) hblocks
  have hlength : blocks.length = last - c := by
    have := congrArg List.length hmap
    simp only [List.length_map, List.length_range'] at this
    omega
  have hn : last + 1 - (c + 1) = blocks.length := by omega
  have hend : c + blocks.length = last := by omega
  rw [hn] at hmap
  refine (collect_ends cache flushSize hmap (by omega) (.nil c)).bind fun pending => ?_
  rw [hend]
  rintro s ⟨c', hs, hp⟩
  exact commitPending_ends cache hp hlast s hs

/-! ## The rows of a paid table -/

/-- The rows of a table that is paid up to `C`. -/
theorem mem_rewards_iff {C : Nat} {t : Tables} (h : Paid pays C t) {r : RewardRow} :
    r ∈ t.rewards ↔ (owedAt pays C r.address).map (rowOf r.address) = some r := by
  rw [← h.booked.row, Keyed.get?_iff h.booked.nodup]
  exact (and_iff_left rfl).symm

/-- The addresses that have a row. -/
theorem exists_row_iff {C : Nat} {t : Tables} (h : Paid pays C t) (a : String) :
    (∃ r ∈ t.rewards, r.address = a) ↔ ∃ h ∈ Finset.Icc 1 C, ∃ w ∈ pays h, payee w = a := by
  have hnone : ¬ owedAt pays C a = none ↔ _ := owedAt_eq_none_iff.not
  push Not at hnone
  rw [← hnone]
  constructor
  · rintro ⟨r, hr, rfl⟩ ho
    rw [mem_rewards_iff h, ho] at hr
    cases hr
  · intro ho
    obtain ⟨s, hs⟩ := Option.ne_none_iff_exists'.mp ho
    refine ⟨rowOf a s, (mem_rewards_iff h).mpr ?_, rfl⟩
    rw [show (rowOf a s).address = a from rfl, hs, Option.map_some]

/-- **The row of an address**: the exact sum, as text that reads back as this sum, and the last height. -/
theorem row_of_mem {C : Nat} {t : Tables} (h : Paid pays C t) {r : RewardRow} (hr : r ∈ t.rewards) :
    r.amount = toString (∑ h ∈ Finset.Icc 1 C, paidTo pays r.address h) ∧
      IsGreatest {h | h ∈ Finset.Icc 1 C ∧ ∃ w ∈ pays h, payee w = r.address} r.height := by
  obtain ⟨⟨n, k⟩, ho, hrow⟩ := Option.map_eq_some_iff.mp ((mem_rewards_iff h).mp hr)
  have hamount : ((owedAt pays C r.address).map Prod.fst).getD 0 = _ := owedAt_amount C r.address
  rw [ho, Option.map_some, Option.getD_some] at hamount
  have h₁ : r.amount = toString n := (congrArg RewardRow.amount hrow).symm
  have h₂ : r.height = k := (congrArg RewardRow.height hrow).symm
  exact ⟨h₁.trans (congrArg toString hamount), h₂ ▸ owedAt_height ho⟩

/-- Two tables that are paid up to `C` have the same rows. -/
theorem Paid.perm {C : Nat} {t u : Tables} (ht : Paid pays C t) (hu : Paid pays C u) : u.rewards.Perm t.rewards := by
  refine (List.perm_ext_iff_of_nodup (.of_map _ hu.booked.nodup) (.of_map _ ht.booked.nodup)).mpr fun r => ?_
  rw [mem_rewards_iff hu, mem_rewards_iff ht]

/-! ## Ticks and runs -/

/-- **Rewards keep the invariant over a tick**, wherever it stops. -/
theorem rewards_sustain {feed : ExecutionFeed} (hf : feed.Follows pays) (cache : Cache γ) (flushSize : Nat)
    (schedule : Schedule) (cancelled : Session γ → Bool) :
    Sustains (loopUntil schedule cancelled) (rewards feed cache flushSize) 0x80000000
      fun C s => Paid pays C s.database.tables where
  load c := by
    intro s hs
    refine (checkpoint_ends.mono (fun _ h => h) (fun c' s' h => ?_) fun s' h => h.1.symm ▸ hs) s ⟨rfl, rfl⟩
    obtain ⟨hread, ht, -⟩ := h
    rw [show (rewards feed cache flushSize).name = rewardName from rfl, hs.checkpoint, Option.map_some,
      Word.readBack_of_lt hs.half] at hread
    exact ⟨(Option.some.inj hread).symm, ht.symm ▸ hs⟩
  target c := Ends.ofExcept.post fun h s hh => ⟨hf.head h hh.1, hh.2⟩
  count c d s hs := hs
  cover a b hab hb := rewards_cover_ends hf cache flushSize hab hb

/-- The checkpoint is not set up yet and nothing is paid, or what is paid is exact. -/
def Standing (pays : Nat → List Withdrawal) (t : Tables) : Prop :=
  (t.checkpoint? rewardName = none ∧ t.rewards = []) ∨ ∃ C, Paid pays C t

namespace Execution

/-- **The states of any run** from an empty database: setting up the checkpoint, ticks of any loop over any feed that
follows the chain, with any cache and flush size, and restarts over the same tables. Whatever fails, the run goes
on. -/
inductive Reaches (pays : Nat → List Withdrawal) : Session γ → Prop
  | empty {s : Session γ} : s.database.tables = {} → Reaches pays s
  | setup {schedule : Schedule} {s : Session γ} : Reaches pays s →
      Reaches pays ((Session.loop schedule).checkpoints.setup rewardName s).2
  | tick {feed : ExecutionFeed} {cache : Cache γ} {flushSize : Nat} {schedule : Schedule}
      {cancelled : Session γ → Bool} {s : Session γ} : Reaches pays s → feed.Follows pays →
      Reaches pays ((loopUntil schedule cancelled).tick (rewards feed cache flushSize) s).2
  | restart {s s' : Session γ} : Reaches pays s → s'.database.tables = s.database.tables → Reaches pays s'

/-- Without a checkpoint a tick does nothing. -/
theorem tick_ends_of_none {t : Tables} {l : Stake.Ledger} (hnone : t.checkpoint? rewardName = none)
    {feed : ExecutionFeed} {cache : Cache γ} {flushSize : Nat} {schedule : Schedule}
    {cancelled : Session γ → Bool} :
    Ends (At t l) ((loopUntil schedule cancelled).tick (rewards feed cache flushSize)) (fun _ => At t l) (At t l) := by
  refine checkpoint_ends.bind fun c => Ends.assuming fun hc => ?_
  rw [show (rewards feed cache flushSize).name = rewardName from rfl, hnone] at hc
  cases hc

theorem setup_standing {t : Tables} (h : Standing pays t) :
    Standing pays { t with checkpoints := Keyed.keep Checkpoint.indexer ⟨rewardName, 0⟩ t.checkpoints } := by
  rcases h with ⟨hnone, hrewards⟩ | ⟨C, hp⟩
  · refine .inr ⟨0, ?_, by decide, ?_⟩
    · have hkeep := Keyed.get?_keep Checkpoint.indexer ⟨rewardName, 0⟩ t.checkpoints
      rwa [show Keyed.get? Checkpoint.indexer rewardName t.checkpoints = none from hnone] at hkeep
    · rw [show owedAt pays 0 = fun _ => none from rfl, hrewards]
      exact ⟨List.nodup_nil, fun _ => rfl, fun _ _ h => nomatch h⟩
  · rw [keep_checkpoint hp.checkpoint ⟨rewardName, 0⟩ rfl]
    exact .inr ⟨C, hp⟩

theorem standing_snd {α : Type} {x : Action (Session γ) α} {s : Session γ} {u : Tables}
    (h : Ends (At s.database.tables s.ledger) x (fun _ => At u s.ledger) (At s.database.tables s.ledger))
    (hs : Standing pays s.database.tables) (hu : Standing pays u) : Standing pays (x s).2.database.tables :=
  (h.mono (F := fun s' => Standing pays s'.database.tables) (fun _ h => h) (fun _ _ h => h.1.symm ▸ hu)
    fun _ h => h.1.symm ▸ hs).snd ⟨rfl, rfl⟩

theorem Reaches.standing {s : Session γ} (h : Reaches pays s) : Standing pays s.database.tables := by
  induction h with
  | empty hs =>
    rw [hs]
    exact .inl ⟨rfl, rfl⟩
  | setup _ ih => exact standing_snd (setup_ends _ rewardName) ih (setup_standing ih)
  | tick _ hf ih =>
    rcases ih with ⟨hnone, hrewards⟩ | ⟨C, hp⟩
    · exact standing_snd (tick_ends_of_none hnone) (.inl ⟨hnone, hrewards⟩) (.inl ⟨hnone, hrewards⟩)
    · exact .inr (((rewards_sustain hf _ _ _ _).tick C).snd hp)
  | restart _ ht ih =>
    rw [ht]
    exact ih

/-- The checkpoint of a run says up to where it is paid. -/
theorem Reaches.paid {C : Nat} {s : Session γ} (h : Reaches pays s)
    (hC : s.database.tables.checkpoint? rewardName = some ⟨rewardName, C⟩) : Paid pays C s.database.tables := by
  rcases h.standing with ⟨hnone, -⟩ | ⟨C', hp⟩
  · rw [hnone] at hC
    cases hC
  · have heq : C' = C := congrArg Checkpoint.height (Option.some.inj (hp.checkpoint.symm.trans hC))
    exact heq ▸ hp

/-- **Rewards are exact** in every state that a run from an empty database reaches, whatever the flush sizes, batches,
lags and heads, and whatever fails, is cancelled or restarted.

With the checkpoint at `C`, the table holds one row for each address that has a withdrawal at a height in `1 … C`; its
amount is the text of the exact sum of those withdrawals and reads back as this sum, and its height is that of the last
of them. Any other run that is at the same checkpoint has the same rows. -/
theorem rewards_exactly_once {s : Session γ} (h : Reaches pays s) :
    ∀ C, s.database.tables.checkpoint? rewardName = some ⟨rewardName, C⟩ →
      (s.database.tables.rewards.map RewardRow.address).Nodup ∧
      (∀ a, (∃ r ∈ s.database.tables.rewards, r.address = a) ↔
        ∃ h ∈ Finset.Icc 1 C, ∃ w ∈ pays h, Address.normalForm w.address = a) ∧
      (∀ r ∈ s.database.tables.rewards,
        r.amount = toString (∑ h ∈ Finset.Icc 1 C, paidTo pays r.address h) ∧
        Text.Numeral.large r.amount = .ok (∑ h ∈ Finset.Icc 1 C, paidTo pays r.address h) ∧
        IsGreatest {h | h ∈ Finset.Icc 1 C ∧ ∃ w ∈ pays h, Address.normalForm w.address = r.address} r.height) ∧
      ∀ s' : Session δ, Reaches pays s' →
        s'.database.tables.checkpoint? rewardName = s.database.tables.checkpoint? rewardName →
        s'.database.tables.rewards.Perm s.database.tables.rewards := by
  intro C hC
  have hp := h.paid hC
  refine ⟨hp.booked.nodup, exists_row_iff hp, fun r hr => ?_, fun s' h' hC' => ?_⟩
  · obtain ⟨hamount, hheight⟩ := row_of_mem hp hr
    exact ⟨hamount, by rw [hamount, Text.Numeral.large_toString], hheight⟩
  · exact hp.perm (h'.paid (hC'.trans hC))

/-! ## A run -/

/-- Two heights with a withdrawal, in two spellings of one address. -/
def samplePays (h : Nat) : List Withdrawal :=
  if h = 1 then [⟨"0xAB", 1⟩] else if h = 2 then [⟨"0xab", 2⟩] else []

/-- A feed of this chain that never fails. -/
def samplePayFeed : ExecutionFeed where
  head := .ok 2
  block h := .ok ⟨h, "", 0, 0, 0, samplePays h⟩
  logs _ _ := .ok []

theorem samplePayFeed_follows : samplePayFeed.Follows samplePays where
  head h hh := by
    cases hh
    decide
  block h b hb := by
    cases hb
    exact ⟨rfl, rfl⟩

/-- A tick that commits after every block, with a cache that refuses every call. -/
def samplePayout : Session Unit :=
  let empty : Session Unit := { database := {}, cache := (), ledger := ⟨0⟩ }
  let ready := ((Session.loop {}).checkpoints.setup rewardName empty).2
  ((loopUntil { lag := 1 } fun _ => false).tick (rewards samplePayFeed (Cache.refusing "down") 1) ready).2

theorem samplePayout_reaches : Reaches samplePays samplePayout :=
  .tick (.setup (.empty rfl)) samplePayFeed_follows

/-- The run is exact, and it does pay. -/
theorem samplePayout_exact :
    samplePayout.database.tables.rewards = [⟨"0xab", "3", 2⟩] ∧
      ∀ r ∈ samplePayout.database.tables.rewards,
        r.amount = toString (∑ h ∈ Finset.Icc 1 2, paidTo samplePays r.address h) := by
  obtain ⟨-, -, hrow, -⟩ := @rewards_exactly_once Unit Unit samplePays samplePayout samplePayout_reaches 2 (by cbv)
  exact ⟨by cbv, fun r hr => (hrow r hr).1⟩

end Execution

end StakeTrail.Indexing
