import Mathlib
import StakeTrail.Proofs.Indexing.TotalStake

/-!
# What a restart does to the running total

A restarted session takes the total from the latest point, and a query hands back only the low half of its amount. So
the total after a restart is the low half of what it was before (`restart_total`), and it is the same exactly when
that is a half word.

* A run all of whose restarts are at such totals ends like one that was never interrupted.
* `restart_forgets` is a run whose total changes its sign.
-/

namespace StakeTrail.Indexing.Consensus

open StakeTrail.Action Store Database Session Stake

variable {γ : Type} {chain : ConsensusChain} {genesis : Genesis} {C : Nat}

theorem low_low (i : Int) : Word.low (Word.low i) = Word.low i := by
  unfold Word.low
  omega

theorem low_eq_iff {i : Int} : Word.low i = i ↔ -0x80000000 ≤ i ∧ i < 0x80000000 := by
  unfold Word.low
  omega

/-- The total that a restart finds is the low half of the last one. -/
theorem foundTotal_series (hs : chain.Steady genesis) (C : Nat) :
    foundTotal genesis (chain.series genesis (Word.low genesis.amount) C) =
      Word.low (chain.totalAt (Word.low genesis.amount) C) := by
  rw [foundTotal, ConsensusChain.leading?_series hs, Option.map_some, Option.getD_some]
  rcases chain.lastPoint_amount genesis (Word.low genesis.amount) C with ⟨-, hamount⟩ | ⟨-, hpoint, htotal⟩
  · rw [hamount]
  · rw [hpoint, htotal, low_low]
    rfl

/-- The total after the heights up to `C` is a half word. -/
def Half (chain : ConsensusChain) (genesis : Genesis) (C : Nat) : Prop :=
  -0x80000000 ≤ Word.low genesis.amount + ∑ h ∈ Finset.Icc 1 C, chain.net h ∧
    Word.low genesis.amount + ∑ h ∈ Finset.Icc 1 C, chain.net h < 0x80000000

theorem kept_iff (hs : chain.Steady genesis) :
    Kept chain genesis (Word.low genesis.amount) C ↔ Half chain genesis C := by
  rw [Kept, foundTotal_series hs, low_eq_iff, ConsensusChain.totalAt_eq, Half]

/-- **After a restart the total is the low half of what it was**, so it is the same exactly when that was a half word.
The tables stay. Two runs whose earlier restarts were all at such totals have the same points and the same total
wherever their checkpoints are the same, however often each of them was restarted. -/
theorem restart_total (hsteady : chain.Steady genesis) {rs : List Nat} {s s' s'' : Session γ}
    {feed : ConsensusFeed} {schedule : Schedule} (h : Reaches chain genesis rs s)
    (hrs : ∀ C ∈ rs, Half chain genesis C) (hinit : (duo feed genesis schedule).init s' = (.ok (), s''))
    (ht : s'.database.tables = s.database.tables) :
    s''.database.tables = s.database.tables ∧
    s''.ledger.total = Word.low s.ledger.total ∧
    (s''.ledger.total = s.ledger.total ↔ -0x80000000 ≤ s.ledger.total ∧ s.ledger.total < 0x80000000) ∧
    ∀ (rs' : List Nat) (r : Session γ), Reaches chain genesis rs' r → (∀ C ∈ rs', Half chain genesis C) →
      r.database.tables.checkpoint? totalName = s.database.tables.checkpoint? totalName →
      r.database.tables.totals = s.database.tables.totals ∧ r.ledger = s.ledger := by
  obtain ⟨C, hs⟩ := h.settled fun C hC => (kept_iff hsteady).mpr (hrs C hC)
  obtain ⟨htables, htotal⟩ := hs.restart ht hinit
  have hlow : s''.ledger.total = Word.low s.ledger.total := by rw [htotal, foundTotal_series hsteady, hs.total]
  refine ⟨htables, hlow, by rw [hlow, low_eq_iff], fun rs' r hr hrs' hsame => ?_⟩
  obtain ⟨C', hr⟩ := hr.settled fun C hC => (kept_iff hsteady).mpr (hrs' C hC)
  rw [hs.checkpoint, hr.checkpoint] at hsame
  have hC : C' = C := congrArg Checkpoint.height (Option.some.inj hsame)
  subst hC
  refine ⟨hr.points.trans hs.points.symm, ?_⟩
  cases hl : r.ledger
  cases hl' : s.ledger
  have h₁ := hr.total
  rw [← hs.total, hl, hl'] at h₁
  exact congrArg Ledger.mk h₁

/-- Block times of the sample chain are steady. -/
theorem sample_steady {genesis : Genesis} (h : genesis.time ≤ 100) : sample.Steady genesis :=
  ⟨fun _ _ => h, fun _ _ _ _ => le_rfl⟩

/-- The sample run after a restart. -/
def sampleRestart (genesis : Genesis) : Session Unit :=
  ((duo sampleFeed genesis {}).init ((sampleRun genesis).restarted { genesis })).2

/-- A restart at a total of 11. -/
theorem sampleRestart_keeps :
    (sampleRestart ⟨10, 50, 1⟩).ledger.total = 11 ∧
      (sampleRestart ⟨10, 50, 1⟩).ledger.total = Word.low (sampleRun ⟨10, 50, 1⟩).ledger.total := by
  have hinit : (duo sampleFeed ⟨10, 50, 1⟩ {}).init
      ((sampleRun ⟨10, 50, 1⟩).restarted { genesis := ⟨10, 50, 1⟩ }) = (.ok (), sampleRestart ⟨10, 50, 1⟩) :=
    Prod.ext (by cbv) rfl
  obtain ⟨-, hlow, -⟩ :=
    restart_total (sample_steady (by decide)) (sampleRun_reaches ⟨10, 50, 1⟩) (by simp) hinit rfl
  exact ⟨by cbv, hlow⟩

/-- **A restart does not keep every total**: one delegation of 1 on top of 2147483647 makes 2147483648, which is there
again as -2147483648. -/
theorem restart_forgets :
    ¬ ∀ (chain : ConsensusChain) (genesis : Genesis), chain.Steady genesis → ∀ s s' s'' : Session Unit,
      Reaches chain genesis [] s → s'.database.tables = s.database.tables →
      (∃ feed schedule, (duo feed genesis schedule).init s' = (.ok (), s'')) →
      s''.ledger.total = s.ledger.total := by
  intro h
  have hsame := h sample ⟨2147483647, 50, 1⟩ (sample_steady (by decide)) _
    ((sampleRun ⟨2147483647, 50, 1⟩).restarted { genesis := ⟨2147483647, 50, 1⟩ })
    (sampleRestart ⟨2147483647, 50, 1⟩) (sampleRun_reaches _) rfl ⟨sampleFeed, {}, Prod.ext (by cbv) rfl⟩
  have hbefore : (sampleRun ⟨2147483647, 50, 1⟩).ledger.total = 2147483648 := by cbv
  have hafter : (sampleRestart ⟨2147483647, 50, 1⟩).ledger.total = -2147483648 := by cbv
  rw [hbefore, hafter] at hsame
  cases hsame

end StakeTrail.Indexing.Consensus
