import StakeTrail.Proofs.Indexing.Batches
import StakeTrail.Proofs.Uptime.Ballot

/-!
# The window of votes

`Windowed` says that the table of votes holds what was voted at the heights of the window that ends at the checkpoint,
and nothing else. A batch right after the checkpoint moves the window to the end of its range (`votes_cover_ends`),
also when the range is longer than the window.

* **The main statement** (`votes_windowed`) says this of every run of consecutive batches, and that no validator has
  more votes than the window or the chain has heights.
* It also says what a batch does that meets a vote of nobody: it fails and changes nothing.
-/

namespace StakeTrail

open Uptime

/-- **A vote at a height**: a signature of its commit that the active set of the height traces to an owner. -/
def Roster.Voted (roster : Roster) (h : Nat) (a : String) : Prop :=
  ∃ set, ActiveSet.ofValidators (roster.validators h) = .ok set ∧
    ∃ s ∈ roster.commit h, s.IsVote ∧ set.owner? s.validator = some a

namespace Indexing.Votes

open StakeTrail.Action Store Database Session Consensus

variable {γ : Type} {roster : Roster} {C W : Nat} {t : Tables} {l : Stake.Ledger} {feed : ConsensusFeed}
  {cache : Cache γ} {first last : Nat} {found : List Evidence}

/-- **The table at `C`**: the votes of the window of `W` heights that ends there. -/
structure Windowed (roster : Roster) (W C : Nat) (t : Tables) : Prop where
  checkpoint : t.reached voteName = C
  half : C < 0x80000000
  nodup : t.votes.Nodup
  mem : ∀ v, v ∈ t.votes ↔ v.block ∈ Finset.Ioc (C - max W 1) C ∧ roster.Voted v.block v.owner

/-- The votes of a batch are those of the roster. -/
theorem mem_rows (hf : feed.Lists roster) (hfound : Feed.gather first last (evidence feed) = .ok found)
    {rows : List Vote} (hrows : votesOf found = .ok rows) (v : Vote) :
    v ∈ rows ↔ v.block ∈ Finset.Icc first last ∧ roster.Voted v.block v.owner := by
  have hmap := gather_evidence hf hfound
  rw [mem_votesOf hrows]
  constructor
  · rintro ⟨e, he, hblock, s, hs, hvote, howner⟩
    have hmem := List.mem_map_of_mem
      (f := fun e : Evidence => (e.height, e.signatures, (Except.ok e.active : Except Fault ActiveSet))) he
    rw [hmap] at hmem
    obtain ⟨h, hh, heq⟩ := List.mem_map.mp hmem
    simp only [Prod.mk.injEq] at heq
    obtain ⟨hheight, hsigs, hset⟩ := heq
    rw [List.mem_range'_1] at hh
    rw [hblock, ← hheight]
    exact ⟨Finset.mem_Icc.mpr (by omega), e.active, hset, s, hsigs ▸ hs, hvote, howner⟩
  · rintro ⟨hblock, set, hset, s, hs, hvote, howner⟩
    rw [Finset.mem_Icc] at hblock
    have hmem : (v.block, roster.commit v.block, ActiveSet.ofValidators (roster.validators v.block)) ∈
        (List.range' first (last + 1 - first)).map
          fun h => (h, roster.commit h, ActiveSet.ofValidators (roster.validators h)) :=
      List.mem_map.mpr ⟨v.block, List.mem_range'_1.mpr (by omega), rfl⟩
    rw [← hmap] at hmem
    obtain ⟨e, he, heq⟩ := List.mem_map.mp hmem
    simp only [Prod.mk.injEq] at heq
    obtain ⟨hheight, hsigs, hactive⟩ := heq
    have hactive : e.active = set := Except.ok.inj (hactive.trans hset)
    exact ⟨e, he, hheight.symm, s, hsigs ▸ hs, hvote, hactive ▸ howner⟩

/-- **A batch right after the checkpoint** moves the window to the end of its range, or leaves the tables alone. -/
theorem votes_cover_ends (hs : Windowed roster W C t) (hf : feed.Lists roster) (hle : C ≤ last)
    (hlast : last < 0x80000000) :
    Ends (At t l) ((votes feed cache W).cover (C + 1) last)
      (fun _ s => Windowed roster W last s.database.tables) (fun s => ∃ C, Windowed roster W C s.database.tables) := by
  have keep : ∀ s : Session γ, At t l s → ∃ C, Windowed roster W C s.database.tables := fun s h => ⟨C, h.1 ▸ hs⟩
  refine (Ends.ofExcept.fault keep).bind fun found => Ends.assuming fun hfound => ?_
  refine (Ends.ofExcept.fault keep).bind fun rows => Ends.assuming fun hrows => ?_
  refine (Ends.ofExcept.fault keep).bind fun low => Ends.assuming fun hlow => ?_
  have hlow : low = last + 1 - max W 1 := by
    have hsucc : successor last = .ok (last + 1) := by
      unfold successor Word.top
      rw [if_pos (by omega)]
    rw [Uptime.floor, hsucc] at hlow
    exact (Except.ok.inj hlow).symm
  refine ((onStore_ends (votes_ends voteName rows low last)).mono (fun _ h => h) ?_ keep).bind fun _ =>
    onCache_keeps.fault fun s h => ⟨last, h⟩
  rintro _ s ⟨⟨hcheck, ht⟩, -⟩
  rw [show s.database.tables = _ from ht]
  have hreached : t.reached voteName = C := hs.checkpoint
  have hhalf := hs.half
  have hrow := mem_rows hf hfound hrows
  refine ⟨?_, hlast, (nodup_keepVotes hs.nodup).filter _, fun v => ?_⟩
  · refine (reached_advance rfl hcheck (by omega) (by omega)).trans ?_
    omega
  · change v ∈ pruneVotes low (keepVotes rows t.votes) ↔ _
    -- what lies above all heights is in neither table
    by_cases hv : v.block < 0x80000000
    · rw [mem_pruneVotes hv (by omega), mem_keepVotes, hs.mem, hrow, Finset.mem_Ioc, Finset.mem_Ioc, Finset.mem_Icc]
      rw [← or_and_right, and_right_comm]
      refine and_congr_left fun _ => ?_
      omega
    · have hnew : v ∉ pruneVotes low (keepVotes rows t.votes) := by
        intro hmem
        have hmem := mem_keepVotes.mp (List.mem_filter.mp hmem).1
        rw [hs.mem, hrow, Finset.mem_Ioc, Finset.mem_Icc] at hmem
        omega
      rw [Finset.mem_Ioc]
      constructor
      · exact fun h => absurd h hnew
      · intro h
        omega

/-- **A batch with a vote of nobody** fails and changes nothing. -/
theorem votes_cover_unknown (hfound : Feed.gather first last (evidence feed) = .ok found)
    (hno : ∃ e ∈ found, ∃ s, Unowned e s) (session : Session γ) :
    ∃ e ∈ found, ∃ s, Unowned e s ∧
      (votes feed cache W).cover first last session = (.error (.unknownValidator s.validator e.height), session) := by
  obtain ⟨e, he, s, hs, herror⟩ := votesOf_unknown hno
  refine ⟨e, he, s, hs, ?_⟩
  simp only [Consensus.votes, bind_apply, ofExcept_apply, hfound, herror]

/-! ## Runs -/

/-- A run of the indexer of votes with a window of `W` heights. -/
abbrev Reaches (roster : Roster) (W : Nat) : Session γ → Prop :=
  Batches roster voteName (fun feed cache => Consensus.votes feed cache W) fun t => t.votes

theorem votes_roll (roster : Roster) (W : Nat) :
    Rolls roster voteName (fun feed (cache : Cache γ) => Consensus.votes feed cache W) (fun t => t.votes)
      (Windowed roster W) where
  empty := ⟨rfl, by decide, List.nodup_nil, by simp⟩
  reached hs := hs.checkpoint
  frame hs hrows hreached :=
    ⟨hreached.trans hs.checkpoint, hs.half, by rw [hrows]; exact hs.nodup, by rw [hrows]; exact hs.mem⟩
  batch hs hf hle hlast := votes_cover_ends hs hf hle hlast

/-- No validator has more votes in a window than it has heights. -/
theorem Windowed.voteCounts_le (hs : Windowed roster W C t) {validators : List String} {counts : List (String × Nat)}
    {d d' : Database} (hd : d.tables = t) (hcounts : voteCounts validators d = (.ok counts, d')) :
    ∀ p ∈ counts, p.2 ≤ min (max W 1) C := by
  have hhalf := hs.half
  obtain ⟨rfl, -⟩ := (query_ends (t := t) _).of_ok hd hcounts
  intro p hp
  obtain ⟨o, -, rfl⟩ := List.mem_map.mp hp
  have hle := votes_le hs.nodup (fun v hv => ((hs.mem v).mp hv).1) o
  dsimp only
  rw [Word.readBack_of_lt (by omega)]
  omega

/-- **Votes are kept in a sliding window.** Whatever consecutive ranges the heights up to the checkpoint were cut into,
and whatever failed between them, the table holds exactly the votes at the heights of the window that ends at the
checkpoint, each once.

* A batch whose evidence was found, but which has a vote of nobody, fails with such a vote and changes nothing.
* No validator is counted more votes than the window or the chain has heights. -/
theorem votes_windowed {s : Session γ} (h : Reaches roster W s) :
    ∃ C, s.database.tables.reached voteName = C ∧ s.database.tables.votes.Nodup ∧
      (∀ a k, ⟨a, k⟩ ∈ s.database.tables.votes ↔ 1 ≤ k ∧ k ≤ C ∧ C < k + max W 1 ∧ roster.Voted k a) ∧
      (∀ (feed : ConsensusFeed) (cache : Cache γ) (first last : Nat) (found : List Evidence),
        Feed.gather first last (evidence feed) = .ok found →
        (∃ e ∈ found, ∃ sig ∈ e.signatures, sig.IsVote ∧ e.active.owner? sig.validator = none) →
        ∃ e ∈ found, ∃ sig ∈ e.signatures, (sig.IsVote ∧ e.active.owner? sig.validator = none) ∧
          (Consensus.votes feed cache W).cover first last s =
            (.error (.unknownValidator sig.validator e.height), s)) ∧
      ∀ validators counts d, voteCounts validators s.database = (.ok counts, d) →
        ∀ p ∈ counts, p.2 ≤ min (max W 1) C := by
  obtain ⟨C, hs⟩ := h.stands (votes_roll roster W)
  refine ⟨C, hs.checkpoint, hs.nodup, fun a k => ?_, fun feed cache first last found hfound hno => ?_,
    fun validators counts d hcounts => hs.voteCounts_le rfl hcounts⟩
  · rw [hs.mem, Finset.mem_Ioc, ← and_assoc, ← and_assoc]
    refine and_congr_left fun _ => ?_
    simp only
    omega
  · obtain ⟨e, he, sig, ⟨hsig, hvote⟩, hcover⟩ := votes_cover_unknown hfound hno s
    exact ⟨e, he, sig, hsig, hvote, hcover⟩

/-! ## A run -/

/-- An empty database, the checkpoint set up, and the heights 1 to 4 in two ranges, with a window of two heights. -/
def sampleRun : Session Unit :=
  let fresh := ((Session.loop {}).checkpoints.setup voteName { database := {}, cache := (), ledger := ⟨0⟩ }).2
  let earlier := ((Consensus.votes soleFeed (Cache.refusing "") 2).cover 1 3 fresh).2
  ((Consensus.votes soleFeed (Cache.refusing "") 2).cover 4 4 earlier).2

theorem sampleRun_reaches : Reaches soleRoster 2 sampleRun := by
  have hempty : Reaches soleRoster 2 ({ database := {}, cache := (), ledger := ⟨0⟩ } : Session Unit) := .empty rfl
  exact ((hempty.setup (fun _ _ => rfl) {} voteName).range soleFeed_lists (by decide +kernel) (by decide)
    (by decide)).range soleFeed_lists (by decide +kernel) (by decide) (by decide)

theorem voted_sole {a : String} (ha : Address.ofKey sole.key = .ok a) (h : Nat) (b : String) :
    soleRoster.Voted h b ↔ h ≠ 2 ∧ b = a := by
  have hset : ActiveSet.ofValidators [sole] = .ok [("AA", a)] := by
    simp only [ActiveSet.ofValidators, ActiveSet.extendWith, ha]
    rfl
  have howner : ActiveSet.owner? [("AA", a)] "AA" = some a := rfl
  by_cases hh : h = 2
  · simp [Roster.Voted, soleRoster, hh, Signature.IsVote]
  · simp [Roster.Voted, soleRoster, hh, Signature.IsVote, hset, howner, eq_comm]

/-- The window after the run holds the heights 3 and 4. -/
theorem sampleRun_windowed : ∃ a, Address.ofKey sole.key = .ok a ∧
    ∀ v, v ∈ sampleRun.database.tables.votes ↔ v = ⟨a, 3⟩ ∨ v = ⟨a, 4⟩ := by
  obtain ⟨a, ha⟩ : ∃ a, Address.ofKey sole.key = .ok a := ⟨_, sole_owner⟩
  obtain ⟨C, hC, -, hmem, -⟩ := votes_windowed sampleRun_reaches
  have hreached : sampleRun.database.tables.reached voteName = 4 := by decide +kernel
  have hfour : C = 4 := hC.symm.trans hreached
  subst hfour
  refine ⟨a, ha, ?_⟩
  rintro ⟨b, k⟩
  rw [hmem, voted_sole ha, Vote.mk.injEq, Vote.mk.injEq]
  by_cases hb : b = a
  · simp only [hb, true_and, and_true]
    omega
  · simp only [hb, false_and, and_false, or_self]

end Indexing.Votes

end StakeTrail
