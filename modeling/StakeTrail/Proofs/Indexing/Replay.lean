import Mathlib
import StakeTrail.Proofs.Indexing.Recorded
import StakeTrail.Proofs.Store.Lookups
import StakeTrail.Text.Moment

/-!
# What the history replays

The history is made of stored events: the successful stakes and unstakes between two heights, each with the time of its
block. A query joins events and blocks; the time of a missing block is read as `noTime`, and any other time as its low
half.

* The events that are found are those of the range, in order of height and place, and each of them once
  (`mem_changesOf_within`, `changesOf_ascends`).
* `Reads` is what comes of an event, and `Tells` what should: the time of its block, or none without one. The two agree
  just where the time is `Tellable` (`Reads.tells_iff`).

**The main statement** (`changes_replayed`) puts both together. A block of the last second of 1969 is taken for a
missing one (`lastSecond_missed`).
-/

namespace StakeTrail.Indexing

open Store Stake Staking

variable {t : Tables} {first last h : Nat} {e : ConsensusEvent} {c : Change}

/-! ## Events of a range -/

/-- **A height lies between two words** as a column compares them. A word from `2 ^ 63` on counts as negative: nothing
comes before it as the first height, and everything comes after it as the last one. -/
def Within (first last h : Nat) : Prop :=
  (first ≤ h ∨ Word.greatest < first) ∧ h ≤ last ∧ last ≤ Word.greatest

instance (first last h : Nat) : Decidable (Within first last h) := inferInstanceAs (Decidable (_ ∧ _))

theorem within_iff (hfirst : first ≤ Word.top) (hlast : last ≤ Word.top) (hh : h < 0x80000000) :
    (notAfter first h && notAfter h last) = true ↔ Within first last h := by
  have hsigned : Word.signed h = h := Word.signed_of_lt (by omega)
  simp only [notAfter, hsigned, Bool.and_eq_true, decide_eq_true_eq, Within]
  unfold Word.signed Word.greatest
  unfold Word.top at hfirst hlast
  omega

/-- **The events that are found** are the successful stakes and unstakes of the range. -/
theorem mem_changesOf_within {events : List ConsensusEvent} (hrows : ∀ e ∈ events, e.block < 0x80000000)
    (hfirst : first ≤ Word.top) (hlast : last ≤ Word.top) :
    e ∈ changesOf first last events ↔
      e ∈ events ∧ Within first last e.block ∧ e.succeeded = true ∧ (e.kind = .stake ∨ e.kind = .unstake) := by
  rw [changesOf, List.mem_mergeSort, List.mem_filter]
  refine and_congr_right fun he => ?_
  rw [← within_iff hfirst hlast (hrows e he)]
  simp only [Bool.and_eq_true, Bool.or_eq_true, decide_eq_true_eq, and_assoc]

theorem eventInOrder_trans (a b c : ConsensusEvent) (hab : eventInOrder a b = true) (hbc : eventInOrder b c = true) :
    eventInOrder a c = true := by
  simp only [eventInOrder, before, notAfter, Bool.or_eq_true, Bool.and_eq_true, beq_iff_eq, decide_eq_true_eq] at *
  omega

theorem eventInOrder_total (a b : ConsensusEvent) : (eventInOrder a b || eventInOrder b a) = true := by
  simp only [eventInOrder, before, notAfter, Bool.or_eq_true, Bool.and_eq_true, beq_iff_eq, decide_eq_true_eq]
  omega

/-- The order of events, where heights and places are half words. -/
theorem eventInOrder_iff {a b : ConsensusEvent} (ha : a.block < 0x80000000 ∧ a.index ≤ Word.topHalf)
    (hb : b.block < 0x80000000 ∧ b.index ≤ Word.topHalf) :
    eventInOrder a b = true ↔ a.block < b.block ∨ a.block = b.block ∧ a.index ≤ b.index := by
  unfold Word.topHalf at ha hb
  have hsigned : ∀ n, n ≤ 0xFFFFFFFF → Word.signed n = n := fun n hn => Word.signed_of_lt (by omega)
  simp only [eventInOrder, before, notAfter, hsigned a.block (by omega), hsigned b.block (by omega),
    hsigned a.index ha.2, hsigned b.index hb.2, Bool.or_eq_true, Bool.and_eq_true, decide_eq_true_eq, beq_iff_eq]
  omega

/-- **They come in order of height and then of place**, each of them once. -/
theorem changesOf_ascends {events : List ConsensusEvent} (hkeys : (events.map consensusEventKey).Nodup)
    (hrows : ∀ e ∈ events, e.block < 0x80000000 ∧ e.index ≤ Word.topHalf) (first last : Nat) :
    (changesOf first last events).Pairwise fun a b => a.block < b.block ∨ a.block = b.block ∧ a.index < b.index := by
  have hperm : (changesOf first last events).Perm (events.filter fun e =>
      notAfter first e.block && notAfter e.block last && e.succeeded && (e.kind = .stake || e.kind = .unstake)) :=
    List.mergeSort_perm _ eventInOrder
  have hmem : ∀ e ∈ changesOf first last events, e ∈ events := fun e he =>
    (List.mem_filter.mp (hperm.mem_iff.mp he)).1
  have hle : (changesOf first last events).Pairwise fun a b => eventInOrder a b = true :=
    List.pairwise_mergeSort eventInOrder_trans eventInOrder_total _
  have hne : (changesOf first last events).Pairwise fun a b => consensusEventKey a ≠ consensusEventKey b := by
    rw [← List.pairwise_map]
    refine (hperm.map consensusEventKey).nodup_iff.mpr ?_
    exact hkeys.sublist (List.filter_sublist.map consensusEventKey)
  refine (hle.and hne).imp_of_mem fun {a b} ha hb hab => ?_
  obtain ⟨hab, hkey⟩ := hab
  rw [eventInOrder_iff (hrows a (hmem a ha)) (hrows b (hmem b hb))] at hab
  simp only [consensusEventKey, ne_eq, Prod.mk.injEq] at hkey
  omega

/-! ## The time of a block -/

/-- **What a change should tell of an event**: its height, kind and amount, and the time of its block, or none if that
is not stored. -/
structure Tells (t : Tables) (e : ConsensusEvent) (c : Change) : Prop where
  block : c.block = e.block
  kind : c.kind = e.kind
  amount : c.amount = e.amount
  missing : c.time = none ↔ ∀ b ∈ t.consensusBlocks, b.height ≠ e.block
  stored : ∀ b ∈ t.consensusBlocks, b.height = e.block → c.time = some b.time

/-- **What is read of an event.** The low half of a time may be that of a missing block. -/
structure Reads (t : Tables) (e : ConsensusEvent) (c : Change) : Prop where
  block : c.block = e.block
  kind : c.kind = e.kind
  amount : c.amount = e.amount
  missing : (∀ b ∈ t.consensusBlocks, b.height ≠ e.block) → c.time = none
  stored : ∀ b ∈ t.consensusBlocks, b.height = e.block →
    c.time = if Word.low b.time = noTime then none else some (Word.low b.time)

/-- A time that is a half word and not the one of a missing block. -/
def Tellable (time : Int) : Prop := (-0x80000000 ≤ time ∧ time < 0x80000000) ∧ time ≠ noTime

instance (time : Int) : Decidable (Tellable time) := inferInstanceAs (Decidable (_ ∧ _))

/-- Just the times that can be told come back as they are. -/
theorem readTime_eq_some {time : Int} :
    (if Word.low time = noTime then none else some (Word.low time)) = some time ↔ Tellable time := by
  unfold Tellable noTime
  split
  · rename_i hlow
    unfold Word.low at hlow
    simp only [reduceCtorEq, false_iff]
    omega
  · rename_i hlow
    unfold Word.low at hlow ⊢
    rw [Option.some_inj]
    omega

/-- **An event is told rightly** just if the time of its block can be told. -/
theorem Reads.tells_iff (hc : Reads t e c) :
    Tells t e c ↔ ∀ b ∈ t.consensusBlocks, b.height = e.block → Tellable b.time := by
  constructor
  · intro htells b hb hheight
    rw [← readTime_eq_some, ← hc.stored b hb hheight]
    exact htells.stored b hb hheight
  · intro htellable
    have hstored : ∀ b ∈ t.consensusBlocks, b.height = e.block → c.time = some b.time := by
      intro b hb hheight
      rw [hc.stored b hb hheight]
      exact readTime_eq_some.mpr (htellable b hb hheight)
    refine ⟨hc.block, hc.kind, hc.amount, ⟨fun hnone b hb hheight => ?_, hc.missing⟩, hstored⟩
    rw [hstored b hb hheight] at hnone
    cases hnone

/-- **The outer join** reads every event, where no two blocks have one height. -/
theorem changeOf_reads (hblocks : (t.consensusBlocks.map ConsensusBlock.height).Nodup) (he : e.block < 0x80000000) :
    Reads t e (changeOf t.consensusBlocks e) where
  block := by
    simp only [changeOf]
    exact Word.readBack_of_lt he
  kind := rfl
  amount := rfl
  missing := by
    intro hno
    have hnone : Word.low noTime = noTime := rfl
    simp only [changeOf, Keyed.get?_eq_none.mpr hno, Option.map_none, Option.getD_none, hnone, if_true]
  stored := by
    intro b hb hheight
    simp only [changeOf, (Keyed.get?_iff hblocks).mpr ⟨hb, hheight⟩, Option.map_some, Option.getD_some]

/-! ## The changes of a range -/

/-- **What is read for a range of heights**: for each successful stake and unstake in it, in order of height and then of
place, one change. It tells of the event what it should, just if the time of the block, where that is stored, is a
half word and not `noTime`. -/
theorem changes_replayed (hkeys : (t.consensusEvents.map consensusEventKey).Nodup)
    (hblocks : (t.consensusBlocks.map ConsensusBlock.height).Nodup)
    (hrows : ∀ e ∈ t.consensusEvents, e.block < 0x80000000 ∧ e.index ≤ Word.topHalf)
    (hfirst : first ≤ Word.top) (hlast : last ≤ Word.top) :
    ∃ (found : List ConsensusEvent) (changes : List Change), Answers t (stakeChanges first last) changes ∧
      (∀ e, e ∈ found ↔ e ∈ t.consensusEvents ∧ Within first last e.block ∧ e.succeeded = true ∧
        (e.kind = .stake ∨ e.kind = .unstake)) ∧
      (found.Pairwise fun a b => a.block < b.block ∨ a.block = b.block ∧ a.index < b.index) ∧
      List.Forall₂ (Reads t) found changes ∧
      (List.Forall₂ (Tells t) found changes ↔
        ∀ e ∈ found, ∀ b ∈ t.consensusBlocks, b.height = e.block → Tellable b.time) := by
  have hmem := fun e => mem_changesOf_within (e := e) (fun e he => (hrows e he).1) hfirst hlast
  have hreads : ∀ e ∈ changesOf first last t.consensusEvents, Reads t e (changeOf t.consensusBlocks e) := fun e he =>
    changeOf_reads hblocks (hrows e ((hmem e).mp he).1).1
  refine ⟨changesOf first last t.consensusEvents, _, .query _, hmem, changesOf_ascends hkeys hrows first last, ?_, ?_⟩
  · exact List.forall₂_map_right_iff.mpr (List.forall₂_same.mpr hreads)
  · refine Iff.trans List.forall₂_map_right_iff (List.forall₂_same.trans ?_)
    exact forall₂_congr fun e he => (hreads e he).tells_iff

/-! ### Blocks that are stored and blocks that are not -/

/-- A stake with its height and its place. -/
def sampleStakeAt (block index : Nat) : ConsensusEvent := ⟨block, index, "", .stake, true, "", "10"⟩

/-- Three stakes, in no order, of which one failed, and a block at one of their heights. -/
def sampleStakes : Tables where
  consensusBlocks := [⟨4, "", "", 100⟩]
  consensusEvents := [sampleStakeAt 7 1, { sampleStakeAt 7 0 with succeeded := false }, sampleStakeAt 4 2]

/-- **The two stakes that did not fail** are read, one with the time of its block and one without, and both rightly. -/
theorem sampleStakes_replayed : ∃ (found : List ConsensusEvent) (changes : List Change),
    Answers sampleStakes (stakeChanges 1 9) changes ∧ (∀ e, e ∈ found ↔ e = sampleStakeAt 4 2 ∨ e = sampleStakeAt 7 1) ∧
      List.Forall₂ (Tells sampleStakes) found changes := by
  have hkeys : (sampleStakes.consensusEvents.map consensusEventKey).Nodup := by decide
  have hfirst : 1 ≤ Word.top := by decide
  have hlast : 9 ≤ Word.top := by decide
  obtain ⟨found, changes, hanswer, hmem, -, -, htells⟩ :=
    changes_replayed hkeys (by decide) (by decide) hfirst hlast
  refine ⟨found, changes, hanswer, fun e => ?_, htells.mpr fun e he => ?_⟩
  · rw [hmem]
    constructor
    · rintro ⟨he, -, hsucceeded, -⟩
      simp only [sampleStakes, List.mem_cons, List.not_mem_nil, or_false] at he
      rcases he with rfl | rfl | rfl
      · exact .inr rfl
      · cases hsucceeded
      · exact .inl rfl
    · rintro (rfl | rfl) <;> decide
  · have hall : ∀ e ∈ sampleStakes.consensusEvents, ∀ b ∈ sampleStakes.consensusBlocks, b.height = e.block →
        Tellable b.time := by decide
    exact hall e ((hmem e).mp he).1

/-! ### The last second of 1969 -/

/-- A stake at a height whose block is stored. -/
def sampleEpoch : Tables where
  consensusBlocks := [⟨1, "", "", -1⟩]
  consensusEvents := [sampleStakeAt 1 0]

/-- **A block of the last second of 1969** is taken for a missing one, and the change with it for one that cannot be
dated. -/
theorem lastSecond_missed : Text.Moment.parse? "1969-12-31T23:59:59Z" = some (-1) ∧
    Answers sampleEpoch (stakeChanges 1 1) [⟨1, none, .stake, "10"⟩] ∧
    ¬Tells sampleEpoch (sampleStakeAt 1 0) ⟨1, none, .stake, "10"⟩ ∧
    (Deltas.ofChanges [⟨1, none, .stake, "10"⟩]) = .error (.missingBlockTime 1) := by
  have hread : (changesOf 1 1 sampleEpoch.consensusEvents).map (changeOf sampleEpoch.consensusBlocks) =
      [⟨1, none, .stake, "10"⟩] := by cbv
  have hanswer : Answers sampleEpoch (stakeChanges 1 1)
      ((changesOf 1 1 sampleEpoch.consensusEvents).map (changeOf sampleEpoch.consensusBlocks)) := .query _
  rw [hread] at hanswer
  refine ⟨by cbv, hanswer, ?_, by cbv⟩
  intro htells
  exact htells.missing.mp rfl ⟨1, "", "", -1⟩ (by decide) rfl

end StakeTrail.Indexing
