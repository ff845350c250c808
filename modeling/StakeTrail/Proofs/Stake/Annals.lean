import Mathlib
import StakeTrail.Proofs.Stake.Persisted
import StakeTrail.Proofs.Stake.Series
import StakeTrail.Proofs.Staking.Rows

/-!
# The history of a chain

What the table of the history holds when the heights up to some height are in it: `ConsensusChain.annals` writes one
row after the other, height by height. A height leaves a row (`Marks`) when it lies above the first block and its
stored events have a change; the row takes over its second from whoever held it.

* `mem_annals` says which rows there are, and `annals_latest` which one is the last.
* Heights that leave no row may be passed over (`annals_quiet`).
* Applying the changes of further heights to the last amount continues the history (`applyByBlockOnto_annals`), although
  rows that share a second are already put together in memory (`settle_pushHistory`).
-/

namespace StakeTrail

open Stake Staking Store

/-- What a stored event adds to the history: the amount of a successful stake or unstake. -/
def Staking.ConsensusEvent.change? (e : ConsensusEvent) : Option Int :=
  if e.succeeded then
    match e.kind with
    | .stake => some (worth e.amount)
    | .unstake => some (-worth e.amount)
    | _ => none
  else none

namespace ConsensusChain

variable (chain : ConsensusChain) (genesis : Genesis)

/-- What the stored events of a height add up to; nothing where none of them is a change. -/
def due (h : Nat) : Option Int := dueOf ((chain.rows h).filterMap ConsensusEvent.change?)

/-- The amount of the history after a height. -/
def heldAt : Nat → Int
  | 0 => genesis.amount
  | h + 1 => heldAt h + if genesis.block < h + 1 then (chain.due (h + 1)).getD 0 else 0

/-- Whether a height leaves a row. -/
def Marks (h : Nat) : Prop := genesis.block < h ∧ chain.due h ≠ none

instance (h : Nat) : Decidable (chain.Marks genesis h) := inferInstanceAs (Decidable (_ ∧ _))

/-- The row of a height. -/
def row (h : Nat) : HistoryPoint := ⟨h, chain.time h, chain.heldAt genesis h⟩

/-- The rows of the heights up to some height. -/
def annals : Nat → List HistoryPoint
  | 0 => [genesis.historyPoint]
  | h + 1 =>
    if chain.Marks genesis (h + 1) then
      (annals h).filter (fun r => r.time ≠ chain.time (h + 1)) ++ [chain.row genesis (h + 1)]
    else annals h

/-- The row of the last height with one. -/
def latest : Nat → HistoryPoint
  | 0 => genesis.historyPoint
  | h + 1 => if chain.Marks genesis (h + 1) then chain.row genesis (h + 1) else latest h

variable {chain genesis}

theorem heldAt_eq (b : Nat) :
    chain.heldAt genesis b = genesis.amount + ∑ h ∈ Finset.Ioc genesis.block b, (chain.due h).getD 0 := by
  induction b with
  | zero => simp [heldAt]
  | succ b ih =>
    rw [heldAt, ih]
    by_cases hb : genesis.block < b + 1
    · rw [if_pos hb, Finset.sum_Ioc_succ_top (by omega), add_assoc]
    · rw [if_neg hb, Finset.Ioc_eq_empty (by omega), Finset.Ioc_eq_empty (by omega), add_zero]

theorem heldAt_of_le {b : Nat} (h : b ≤ genesis.block) : chain.heldAt genesis b = genesis.amount := by
  rw [heldAt_eq, Finset.Ioc_eq_empty (by omega), Finset.sum_empty, add_zero]

/-- A height without a row adds nothing. -/
theorem heldAt_of_not_marks {h : Nat} (hno : ¬ chain.Marks genesis (h + 1)) :
    chain.heldAt genesis (h + 1) = chain.heldAt genesis h := by
  rw [heldAt]
  split
  · rename_i hlt
    rw [not_not.mp fun hdue => hno ⟨hlt, hdue⟩, Option.getD_none, add_zero]
  · rw [add_zero]

/-! ## The rows -/

/-- **The rows of the history**: those of the heights that leave one and whose second nobody took over, and the first
row unless its second was taken over. -/
theorem mem_annals {C : Nat} {r : HistoryPoint} :
    r ∈ chain.annals genesis C ↔
      (r = genesis.historyPoint ∧ ∀ k ≤ C, chain.Marks genesis k → chain.time k ≠ genesis.time) ∨
      ∃ h ≤ C, chain.Marks genesis h ∧ (∀ k, h < k → k ≤ C → chain.Marks genesis k → chain.time k ≠ chain.time h) ∧
        r = chain.row genesis h := by
  induction C generalizing r with
  | zero =>
    have hzero : ¬ chain.Marks genesis 0 := fun h => Nat.not_lt_zero _ h.1
    simp [annals, hzero]
  | succ C ih =>
    by_cases hm : chain.Marks genesis (C + 1)
    · rw [annals, if_pos hm, List.mem_append, List.mem_filter, ih, List.mem_singleton, decide_eq_true_eq]
      constructor
      · rintro (⟨⟨rfl, hno⟩ | ⟨h, hh, hmh, hno, rfl⟩, htime⟩ | rfl)
        · refine .inl ⟨rfl, fun k hk hmk => ?_⟩
          rcases Nat.lt_or_eq_of_le hk with hk | rfl
          · exact hno k (by omega) hmk
          · exact htime.symm
        · refine .inr ⟨h, by omega, hmh, fun k hhk hk hmk => ?_, rfl⟩
          rcases Nat.lt_or_eq_of_le hk with hk | rfl
          · exact hno k hhk (by omega) hmk
          · exact htime.symm
        · exact .inr ⟨C + 1, le_rfl, hm, fun k h₁ h₂ => by omega, rfl⟩
      · rintro (⟨rfl, hno⟩ | ⟨h, hh, hmh, hno, rfl⟩)
        · exact .inl ⟨.inl ⟨rfl, fun k hk => hno k (by omega)⟩, (hno (C + 1) le_rfl hm).symm⟩
        · rcases Nat.lt_or_eq_of_le hh with hlt | rfl
          · exact .inl ⟨.inr ⟨h, by omega, hmh, fun k h₁ h₂ => hno k h₁ (by omega), rfl⟩,
              (hno (C + 1) hlt le_rfl hm).symm⟩
          · exact .inr rfl
    · rw [annals, if_neg hm, ih]
      have hstep : ∀ k ≤ C + 1, chain.Marks genesis k → k ≤ C := by
        intro k hk hmk
        rcases Nat.lt_or_eq_of_le hk with hk | rfl
        · omega
        · exact absurd hmk hm
      constructor
      · rintro (⟨rfl, hno⟩ | ⟨h, hh, hmh, hno, rfl⟩)
        · exact .inl ⟨rfl, fun k hk hmk => hno k (hstep k hk hmk) hmk⟩
        · exact .inr ⟨h, by omega, hmh, fun k h₁ h₂ hmk => hno k h₁ (hstep k h₂ hmk) hmk, rfl⟩
      · rintro (⟨rfl, hno⟩ | ⟨h, hh, hmh, hno, rfl⟩)
        · exact .inl ⟨rfl, fun k hk => hno k (by omega)⟩
        · exact .inr ⟨h, hstep h hh hmh, hmh, fun k h₁ h₂ => hno k h₁ (by omega), rfl⟩

theorem block_le_of_mem {C : Nat} {r : HistoryPoint} (h : r ∈ chain.annals genesis C) :
    genesis.block ≤ r.block ∧ r.block ≤ max C genesis.block := by
  rcases mem_annals.mp h with ⟨rfl, -⟩ | ⟨k, hk, hmk, -, rfl⟩
  · exact ⟨le_rfl, le_max_right _ _⟩
  · exact ⟨hmk.1.le, hk.trans (le_max_left _ _)⟩

/-- No two rows share a block: they come in ascending order. -/
theorem annals_ascend (C : Nat) : (chain.annals genesis C).Pairwise fun r s => r.block < s.block := by
  induction C with
  | zero => exact List.pairwise_singleton _ _
  | succ C ih =>
    rw [annals]
    split
    · rename_i hm
      refine List.pairwise_append.mpr ⟨ih.filter _, List.pairwise_singleton _ _, fun r hr s hs => ?_⟩
      have hle := (block_le_of_mem (List.mem_filter.mp hr).1).2
      have hlt := hm.1
      rw [List.mem_singleton.mp hs]
      change r.block < C + 1
      omega
    · exact ih

theorem nodup_annals_block (C : Nat) : ((chain.annals genesis C).map HistoryPoint.block).Nodup :=
  List.pairwise_map.mpr ((annals_ascend C).imp Nat.ne_of_lt)

/-- No two rows share a second. -/
theorem nodup_annals_time (C : Nat) : ((chain.annals genesis C).map HistoryPoint.time).Nodup := by
  induction C with
  | zero => exact List.nodup_singleton _
  | succ C ih =>
    rw [annals]
    split
    · rw [List.map_append, List.nodup_append]
      refine ⟨ih.sublist (List.filter_sublist.map _), List.nodup_singleton _, fun a ha b hb => ?_⟩
      obtain ⟨r, hr, rfl⟩ := List.mem_map.mp ha
      rw [List.map_singleton, List.mem_singleton] at hb
      rw [hb]
      exact of_decide_eq_true (List.mem_filter.mp hr).2
    · exact ih

variable (chain genesis) in
/-- There is always a row in the second of the first one. -/
theorem exists_first_second (C : Nat) : ∃ r ∈ chain.annals genesis C, r.time = genesis.time := by
  induction C with
  | zero => exact ⟨genesis.historyPoint, List.mem_singleton_self _, rfl⟩
  | succ C ih =>
    obtain ⟨r, hr, htime⟩ := ih
    rw [annals]
    split
    · by_cases hsame : r.time = chain.time (C + 1)
      · exact ⟨chain.row genesis (C + 1), by simp, hsame.symm.trans htime⟩
      · exact ⟨r, List.mem_append_left _ (List.mem_filter.mpr ⟨hr, by simpa using hsame⟩), htime⟩
    · exact ⟨r, hr, htime⟩

variable (chain genesis) in
/-- **The last row** has the highest block, the amount so far, and no height with a row after it. -/
theorem annals_latest (C : Nat) :
    chain.latest genesis C ∈ chain.annals genesis C ∧
      (∀ r ∈ chain.annals genesis C, r.block ≤ (chain.latest genesis C).block) ∧
      (chain.latest genesis C).amount = chain.heldAt genesis C ∧
      ∀ h, (chain.latest genesis C).block < h → h ≤ C → ¬ chain.Marks genesis h := by
  induction C with
  | zero => exact ⟨List.mem_singleton_self _, by simp [annals, latest], rfl, fun h _ hle hm => by
      have := hm.1
      omega⟩
  | succ C ih =>
    obtain ⟨hmem, hmax, hamount, hquiet⟩ := ih
    by_cases hm : chain.Marks genesis (C + 1)
    · rw [annals, latest, if_pos hm, if_pos hm]
      refine ⟨by simp, fun r hr => ?_, rfl, fun h h₁ h₂ => ?_⟩
      · rcases List.mem_append.mp hr with hr | hr
        · have hle := (block_le_of_mem (List.mem_filter.mp hr).1).2
          have hlt := hm.1
          change r.block ≤ C + 1
          omega
        · rw [List.mem_singleton.mp hr]
      · have : C + 1 < h := h₁
        omega
    · rw [annals, latest, if_neg hm, if_neg hm, heldAt_of_not_marks hm]
      refine ⟨hmem, hmax, hamount, fun h h₁ h₂ => ?_⟩
      rcases Nat.lt_or_eq_of_le h₂ with hlt | rfl
      · exact hquiet h h₁ (by omega)
      · exact hm

/-- **Heights without a row** may be passed over. -/
theorem annals_quiet {a b : Nat} (hab : a ≤ b) (hquiet : ∀ h, a < h → h ≤ b → ¬ chain.Marks genesis h) :
    chain.annals genesis b = chain.annals genesis a ∧ chain.heldAt genesis b = chain.heldAt genesis a := by
  induction b, hab using Nat.le_induction with
  | base => exact ⟨rfl, rfl⟩
  | succ b hab ih =>
    have hb := hquiet (b + 1) (by omega) le_rfl
    obtain ⟨h₁, h₂⟩ := ih fun h hlt hle => hquiet h hlt (by omega)
    rw [annals, if_neg hb, heldAt_of_not_marks hb]
    exact ⟨h₁, h₂⟩

/-- Heights between which nothing leaves a row have the same rows. -/
theorem annals_between {a b : Nat} (hquiet : ∀ h, min a b < h → h ≤ max a b → ¬ chain.Marks genesis h) :
    chain.annals genesis a = chain.annals genesis b ∧ chain.heldAt genesis a = chain.heldAt genesis b := by
  rcases Nat.le_total a b with hab | hab
  · rw [min_eq_left hab, max_eq_right hab] at hquiet
    obtain ⟨h₁, h₂⟩ := annals_quiet hab hquiet
    exact ⟨h₁.symm, h₂.symm⟩
  · rw [min_eq_right hab, max_eq_left hab] at hquiet
    exact annals_quiet hab hquiet

variable (chain genesis) in
/-- **Where a range goes on**: nothing left a row between the height before it and the checkpoint. -/
theorem annals_resume {C first : Nat} (hfirst : first ≤ C + 1) :
    ∃ a, max first ((chain.latest genesis C).block + 1) = a + 1 ∧ genesis.block ≤ a ∧
      ∀ h, min a C < h → h ≤ max a C → ¬ chain.Marks genesis h := by
  obtain ⟨hmem, -, -, hquiet⟩ := chain.annals_latest genesis C
  obtain ⟨hge, hle⟩ := block_le_of_mem hmem
  refine ⟨max (first - 1) (chain.latest genesis C).block, by omega, by omega, fun h h₁ h₂ hm => ?_⟩
  by_cases hh : h ≤ C
  · exact hquiet h (by omega) hh hm
  · -- only the first block can lie above the checkpoint
    have := hm.1
    omega

end ConsensusChain

/-! ## Writing rows -/

namespace Store

variable {row : HistoryPoint} {rows table : List HistoryPoint}

/-- Writes a row of the history, over the row of its block and in place of those in its second. -/
def settleRow (row : HistoryPoint) (table : List HistoryPoint) : List HistoryPoint :=
  Keyed.put HistoryPoint.block row (clearSecond row table)

/-- Writes rows of the history in turn. -/
def settle (rows table : List HistoryPoint) : List HistoryPoint := rows.foldl (fun t r => settleRow r t) table

theorem settle_concat (rows : List HistoryPoint) (row : HistoryPoint) (table : List HistoryPoint) :
    settle (rows ++ [row]) table = settleRow row (settle rows table) := by
  simp [settle]

theorem mem_settle {r : HistoryPoint} (h : r ∈ settle rows table) : r ∈ table ++ rows := by
  induction rows using List.reverseRecOn with
  | nil => simpa [settle] using h
  | append_singleton rows last ih =>
    rw [settle_concat] at h
    rcases Keyed.mem_put h with rfl | h
    · simp
    · have := ih (List.mem_filter.mp h).1
      rw [← List.append_assoc]
      exact List.mem_append_left _ this

/-- A row of a new highest block comes last. -/
theorem settleRow_of_lt (h : ∀ r ∈ table, r.block < row.block) :
    settleRow row table = table.filter (fun r => r.time ≠ row.time) ++ [row] := by
  have hclear : clearSecond row table = table.filter fun r => r.time ≠ row.time := by
    refine List.filter_congr fun r hr => ?_
    have hne : r.block ≠ row.block := (h r hr).ne
    simp [hne]
  unfold settleRow
  rw [hclear]
  refine Keyed.put_of_none (Keyed.get?_eq_none.mpr fun r hr => ?_)
  exact (h r (List.mem_filter.mp hr).1).ne

/-- The rows of a table, and those to be written after them, come in ascending order up to a height. -/
structure Piled (table rows : List HistoryPoint) (a : Nat) : Prop where
  ascend : (table ++ rows).Pairwise fun r s => r.block < s.block
  le : ∀ r ∈ table ++ rows, r.block ≤ a

/-- A row that is pushed comes behind some of the earlier ones. -/
theorem pushHistory_eq (row : HistoryPoint) (rows : List HistoryPoint) :
    ∃ front, front.Sublist rows ∧ Ledger.pushHistory row rows = front ++ [row] := by
  unfold Ledger.pushHistory
  rcases List.eq_nil_or_concat' rows with rfl | ⟨front, last, rfl⟩
  · exact ⟨[], .slnil, rfl⟩
  · rw [List.getLast?_concat]
    dsimp only
    split
    · rw [List.dropLast_concat]
      exact ⟨front, List.sublist_append_left _ _, rfl⟩
    · exact ⟨front ++ [last], .refl _, rfl⟩

theorem Piled.push {a : Nat} (h : Piled table rows a) (hrow : a < row.block) :
    Piled table (Ledger.pushHistory row rows) row.block := by
  obtain ⟨front, hfront, heq⟩ := pushHistory_eq row rows
  have hsub : (table ++ front).Sublist (table ++ rows) := (List.Sublist.refl table).append hfront
  rw [heq]
  refine ⟨?_, fun r hr => ?_⟩
  · rw [← List.append_assoc]
    refine List.pairwise_append.mpr ⟨h.ascend.sublist hsub, List.pairwise_singleton _ _, fun r hr s hs => ?_⟩
    rw [List.mem_singleton.mp hs]
    exact (h.le r (hsub.subset hr)).trans_lt hrow
  · rw [← List.append_assoc] at hr
    rcases List.mem_append.mp hr with hr | hr
    · exact (h.le r (hsub.subset hr)).trans hrow.le
    · rw [List.mem_singleton.mp hr]

/-- **Rows that share a second** may be put together before they are written. -/
theorem settle_pushHistory {a : Nat} (h : Piled table rows a) (hrow : a < row.block) :
    settle (Ledger.pushHistory row rows) table = settleRow row (settle rows table) := by
  unfold Ledger.pushHistory
  rcases List.eq_nil_or_concat' rows with rfl | ⟨front, last, rfl⟩
  · rfl
  rw [List.getLast?_concat]
  dsimp only
  split
  · rename_i hsame
    have hlast : last.block < row.block := (h.le last (by simp)).trans_lt hrow
    have hfront : ∀ r ∈ settle front table, r.block < last.block := by
      intro r hr
      have hascend := h.ascend
      rw [← List.append_assoc] at hascend
      exact (List.pairwise_append.mp hascend).2.2 r (mem_settle hr) last List.mem_cons_self
    have hfront' : ∀ r ∈ settle front table, r.block < row.block := fun r hr => (hfront r hr).trans hlast
    rw [List.dropLast_concat, settle_concat, settle_concat, settleRow_of_lt hfront, settleRow_of_lt hfront',
      settleRow_of_lt]
    · -- the row of the same second goes, and the others were cleared for it already
      simp [List.filter_append, List.filter_filter, hsame]
    · intro r hr
      rcases List.mem_append.mp hr with hr | hr
      · exact hfront' r (List.mem_filter.mp hr).1
      · rw [List.mem_singleton.mp hr]
        exact hlast
  · rw [settle_concat]

end Store

/-! ## Continuing the history -/

namespace ConsensusChain

variable {chain : ConsensusChain} {genesis : Genesis}

/-- Deltas that are what is due at the heights above `a` and up to `b`. -/
structure Tallies (chain : ConsensusChain) (a b : Nat) (deltas : Deltas) : Prop where
  ascends : Ascends deltas
  mem : ∀ p, p ∈ deltas ↔ a < p.1 ∧ p.1 ≤ b ∧ chain.due p.1 = some p.2

/-- The first entry is that of the first height at which something is due. -/
theorem Tallies.cons {a b h : Nat} {d : Int} {deltas : Deltas} (ht : chain.Tallies a b ((h, d) :: deltas)) :
    a < h ∧ h ≤ b ∧ chain.due h = some d ∧ (∀ k, a < k → k < h → chain.due k = none) ∧ chain.Tallies h b deltas := by
  obtain ⟨hlt, hrest⟩ := List.pairwise_cons.mp ht.ascends
  obtain ⟨h₁, h₂, h₃⟩ := (ht.mem (h, d)).mp List.mem_cons_self
  refine ⟨h₁, h₂, h₃, fun k hak hkh => ?_, hrest, fun p => ⟨fun hp => ?_, fun hp => ?_⟩⟩
  · by_contra hne
    obtain ⟨x, hx⟩ := Option.ne_none_iff_exists'.mp hne
    rcases List.mem_cons.mp ((ht.mem (k, x)).mpr ⟨hak, by omega, hx⟩) with heq | hmem
    · cases heq
      exact Nat.lt_irrefl _ hkh
    · exact Nat.lt_asymm hkh (hlt (k, x) hmem)
  · obtain ⟨-, hb, hdue⟩ := (ht.mem p).mp (List.mem_cons_of_mem _ hp)
    exact ⟨hlt p hp, hb, hdue⟩
  · rcases List.mem_cons.mp ((ht.mem p).mpr ⟨h₁.trans hp.1, hp.2⟩) with heq | hmem
    · exact absurd hp.1 (by simp [heq])
    · exact hmem

/-- **The changes of further heights continue the history.** -/
theorem applyByBlockOnto_annals {times : Times} (htimes : ∀ p ∈ times, p.2 = chain.time p.1) {table : List HistoryPoint}
    {b : Nat} : ∀ {deltas : Deltas} {a : Nat} {rows rows' : List HistoryPoint} {ledger ledger' : Ledger},
    genesis.block ≤ a → a ≤ b → chain.Tallies a b deltas → ledger.total = chain.heldAt genesis a →
    settle rows table = chain.annals genesis a → Piled table rows a →
    Ledger.applyByBlockOnto times rows ledger deltas = .ok (ledger', rows') →
      settle rows' table = chain.annals genesis b
  | [], a, rows, rows', ledger, ledger', _, hab, ht, _, hrows, _, h => by
    cases h
    have hquiet : ∀ h, a < h → h ≤ b → ¬ chain.Marks genesis h := fun h h₁ h₂ hm => by
      obtain ⟨d, hd⟩ := Option.ne_none_iff_exists'.mp hm.2
      exact absurd ((ht.mem (h, d)).mpr ⟨h₁, h₂, hd⟩) List.not_mem_nil
    rw [hrows, (annals_quiet hab hquiet).1]
  | (h, d) :: deltas, a, rows, rows', ledger, ledger', hg, hab, ht, hl, hrows, hpiled, happly => by
    obtain ⟨hah, hhb, hdue, hbefore, hrest⟩ := ht.cons
    rw [Ledger.applyByBlockOnto] at happly
    rcases hs : ledger.step times h d with e | ⟨time, next⟩ <;> simp only [hs] at happly
    · cases happly
    obtain ⟨rfl, hnext⟩ := step_eq htimes hs
    obtain ⟨k, rfl⟩ : ∃ k, h = k + 1 := ⟨h - 1, by omega⟩
    -- nothing is due before this height
    have hbetween : ∀ j, a < j → j ≤ k → ¬ chain.Marks genesis j := fun j h₁ h₂ hm => hm.2 (hbefore j h₁ (by omega))
    obtain ⟨hquiet, hheld⟩ := annals_quiet (by omega) hbetween
    have hm : chain.Marks genesis (k + 1) := ⟨by omega, by simp [hdue]⟩
    have htotal : next.total = chain.heldAt genesis (k + 1) := by
      rw [hnext, hl, heldAt, if_pos hm.1, hdue, Option.getD_some, hheld]
    have hrow : (⟨k + 1, chain.time (k + 1), next.total⟩ : HistoryPoint) = chain.row genesis (k + 1) := by
      rw [htotal, row]
    rw [hrow] at happly
    refine applyByBlockOnto_annals htimes (by omega) hhb hrest htotal ?_ (hpiled.push hah) happly
    rw [settle_pushHistory hpiled hah, hrows, ← hquiet, settleRow_of_lt, annals, if_pos hm]
    · rfl
    · intro r hr
      have hle := (block_le_of_mem hr).2
      change r.block < k + 1
      omega

end ConsensusChain

end StakeTrail
