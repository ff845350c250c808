import Mathlib
import StakeTrail.Proofs.Indexing.Recorded
import StakeTrail.Proofs.Uptime.Ballot

/-!
# Rows that are written again

Rows that are written over what is stored may be written again without any change, whatever keys they share with each
other and with the table.

* `Keyed.putAll_putAll` is about rows with one key: of each key the last row stays.
* `settle_settle` is about the history, where rows of one block or of one second take each other's place. What stays is
  decided by the rows alone, and of the table what shares neither block nor second with any of them (`mem_settle_iff`).
* `prune_keepVotes_again` is about votes, of which only those of the window count.
-/

namespace StakeTrail

namespace Keyed

variable {α κ : Type} [DecidableEq κ] {key : α → κ} {a b c : α} {rows table : List α}

/-- A row that is found under its key may be written again. -/
theorem put_of_get? (h : get? key (key a) table = some a) : put key a table = table := by
  induction table with
  | nil => cases h
  | cons c rest ih =>
    by_cases hc : key c = key a
    · rw [get?, if_pos hc] at h
      rw [put, if_pos hc, Option.some.inj h]
    · rw [get?, if_neg hc] at h
      rw [put, if_neg hc, ih h]

/-- Two rows of different keys may be written in either order, if one of the keys is there. -/
theorem put_comm (hne : key a ≠ key b) (h : get? key (key a) table ≠ none) :
    put key b (put key a table) = put key a (put key b table) := by
  induction table with
  | nil => exact absurd rfl h
  | cons c rest ih =>
    by_cases hca : key c = key a
    · have hcb : key c ≠ key b := fun hcb => hne (hca.symm.trans hcb)
      simp only [put, hca, hne, if_true, if_false]
    · rw [get?, if_neg hca] at h
      by_cases hcb : key c = key b
      · simp only [put, hcb, hne.symm, if_true, if_false]
      · simp only [put, hca, hcb, if_false, ih h]

/-- A row that is written over later may be left out, if its key is there. -/
theorem putAll_put (hrow : ∃ r ∈ rows, key r = key a) (h : get? key (key a) table ≠ none) :
    putAll key rows (put key a table) = putAll key rows table := by
  induction rows generalizing table with
  | nil =>
    obtain ⟨r, hr, -⟩ := hrow
    cases hr
  | cons b rows ih =>
    change putAll key rows (put key b (put key a table)) = putAll key rows (put key b table)
    by_cases hb : key a = key b
    · rw [put_put hb]
    · have hrest : ∃ r ∈ rows, key r = key a := by
        obtain ⟨r, hr, hra⟩ := hrow
        rcases List.mem_cons.mp hr with rfl | hr
        · exact absurd hra.symm hb
        · exact ⟨r, hr, hra⟩
      rw [put_comm hb h, ih hrest]
      rw [get?_put, if_neg fun hba => hb hba.symm]
      exact h

/-- Rows of other keys leave a row alone. -/
theorem get?_putAll_of_ne {k : κ} (h : ∀ r ∈ rows, key r ≠ k) : get? key k (putAll key rows table) = get? key k table := by
  induction rows generalizing table with
  | nil => rfl
  | cons a rows ih =>
    change get? key k (putAll key rows (put key a table)) = _
    rw [ih fun r hr => h r (List.mem_cons_of_mem _ hr), get?_put, if_neg (h a List.mem_cons_self)]

/-- **Rows that are written again change nothing**: of each key the last row stays, where it is. -/
theorem putAll_putAll (key : α → κ) (rows table : List α) :
    putAll key rows (putAll key rows table) = putAll key rows table := by
  induction rows generalizing table with
  | nil => rfl
  | cons a rows ih =>
    change putAll key rows (put key a (putAll key rows (put key a table))) = putAll key rows (put key a table)
    by_cases hrow : ∃ r ∈ rows, key r = key a
    · -- a later row has the key
      have hthere : get? key (key a) (putAll key rows (put key a table)) ≠ none := by
        obtain ⟨r, hr, hra⟩ := exists_key_putAll (.inl hrow)
        exact fun hnone => get?_eq_none.mp hnone r hr hra
      rw [putAll_put hrow hthere, ih]
    · have hlast : get? key (key a) (putAll key rows (put key a table)) = some a := by
        rw [get?_putAll_of_ne fun r hr hra => hrow ⟨r, hr, hra⟩, get?_put, if_pos rfl]
      rw [put_of_get? hlast, ih]

/-- What a table holds after a write: the row, and what was there under other keys. -/
theorem mem_put_iff (h : (table.map key).Nodup) : c ∈ put key a table ↔ c = a ∨ c ∈ table ∧ key c ≠ key a := by
  have hput := nodup_put a h
  constructor
  · intro hc
    rcases mem_put hc with rfl | hmem
    · exact .inl rfl
    · by_cases hkey : key c = key a
      · -- the row under this key is the one that was written
        have hfound : get? key (key a) (put key a table) = some c := (get?_iff hput).mpr ⟨hc, hkey⟩
        rw [get?_put, if_pos rfl] at hfound
        exact .inl (Option.some.inj hfound).symm
      · exact .inr ⟨hmem, hkey⟩
  · rintro (rfl | ⟨hc, hkey⟩)
    · exact mem_of_get? (by rw [get?_put, if_pos rfl])
    · have hfound : get? key (key c) (put key a table) = some c := by
        rw [get?_put, if_neg fun hac => hkey hac.symm, get?_iff h]
        exact ⟨hc, rfl⟩
      exact mem_of_get? hfound

end Keyed

namespace Store

open StakeTrail.Action Database Stake Uptime

/-! ## The history -/

section History

variable {row : HistoryPoint} {rows table : List HistoryPoint} {r : HistoryPoint}

/-- **What the history holds after a row**: the row, and what was there in other blocks and other seconds. -/
theorem mem_settleRow (h : (table.map HistoryPoint.block).Nodup) :
    r ∈ settleRow row table ↔ r = row ∨ r ∈ table ∧ r.block ≠ row.block ∧ r.time ≠ row.time := by
  have hclear : ((clearSecond row table).map HistoryPoint.block).Nodup := h.sublist (List.filter_sublist.map _)
  unfold settleRow
  rw [Keyed.mem_put_iff hclear, clearSecond, List.mem_filter]
  simp only [Bool.or_eq_true, decide_eq_true_eq]
  tauto

theorem nodup_settleRow_block (row : HistoryPoint) (h : (table.map HistoryPoint.block).Nodup) :
    ((settleRow row table).map HistoryPoint.block).Nodup :=
  Keyed.nodup_put row (h.sublist (List.filter_sublist.map _))

/-- A row takes a second that nobody holds any more. -/
theorem nodup_settleRow_time (row : HistoryPoint) (hblock : (table.map HistoryPoint.block).Nodup)
    (htime : (table.map HistoryPoint.time).Nodup) : ((settleRow row table).map HistoryPoint.time).Nodup := by
  refine List.Nodup.map_on (fun p hp q hq hpq => ?_) (nodup_settleRow_block row hblock).of_map
  rcases (mem_settleRow hblock).mp hp with rfl | ⟨hp, -, hpt⟩ <;>
    rcases (mem_settleRow hblock).mp hq with rfl | ⟨hq, -, hqt⟩
  · rfl
  · exact absurd hpq.symm hqt
  · exact absurd hpq hpt
  · exact List.inj_on_of_nodup_map htime hp hq hpq

/-- Blocks and seconds stay distinct. -/
theorem nodup_settle (rows : List HistoryPoint) (hblock : (table.map HistoryPoint.block).Nodup)
    (htime : (table.map HistoryPoint.time).Nodup) :
    ((settle rows table).map HistoryPoint.block).Nodup ∧ ((settle rows table).map HistoryPoint.time).Nodup := by
  induction rows using List.reverseRecOn with
  | nil => exact ⟨hblock, htime⟩
  | append_singleton rows row ih =>
    rw [settle_concat]
    exact ⟨nodup_settleRow_block row ih.1, nodup_settleRow_time row ih.1 ih.2⟩

/-- **What the history holds after some rows**: what these rows alone would leave, and what was there in blocks and
seconds that none of them has. -/
theorem mem_settle_iff (hblock : (table.map HistoryPoint.block).Nodup) (htime : (table.map HistoryPoint.time).Nodup) :
    r ∈ settle rows table ↔
      r ∈ settle rows [] ∨ r ∈ table ∧ ∀ row ∈ rows, r.block ≠ row.block ∧ r.time ≠ row.time := by
  induction rows using List.reverseRecOn with
  | nil => simp [settle]
  | append_singleton rows row ih =>
    have hempty : (([] : List HistoryPoint).map HistoryPoint.block).Nodup ∧
        (([] : List HistoryPoint).map HistoryPoint.time).Nodup := by simp
    rw [settle_concat, settle_concat, mem_settleRow (nodup_settle rows hblock htime).1,
      mem_settleRow (nodup_settle rows hempty.1 hempty.2).1, ih]
    simp only [List.mem_append, List.mem_singleton, or_imp, forall_and, forall_eq]
    tauto

/-- **Rows of the history that are written again** leave the rows that they left, perhaps in another order. -/
theorem settle_settle (hblock : (table.map HistoryPoint.block).Nodup) (htime : (table.map HistoryPoint.time).Nodup) :
    (settle rows (settle rows table)).Perm (settle rows table) := by
  obtain ⟨hblock', htime'⟩ := nodup_settle rows hblock htime
  have hagain := (nodup_settle rows hblock' htime').1
  refine (List.perm_ext_iff_of_nodup hagain.of_map hblock'.of_map).mpr fun r => ?_
  rw [mem_settle_iff hblock' htime', mem_settle_iff hblock htime]
  constructor
  · rintro (hr | ⟨hr, -⟩)
    · exact .inl hr
    · exact hr
  · rintro (hr | hr)
    · exact .inl hr
    · exact .inr ⟨.inr hr, hr.2⟩

end History

/-! ## Votes -/

section Votes

variable {v : Vote} {rows table : List Vote} {keepFrom : Nat}

theorem prune_keep (v : Vote) (table : List Vote) : pruneVotes keepFrom (Keyed.keep voteKey v table) =
    keepVotes (pruneVotes keepFrom [v]) (pruneVotes keepFrom table) := by
  by_cases hv : before v.block keepFrom
  · -- a vote that is too old goes again
    have hnone : pruneVotes keepFrom [v] = [] := by simp [pruneVotes, hv]
    rw [hnone]
    unfold Keyed.keep
    split
    · rfl
    · rw [pruneVotes, List.filter_append, List.filter_singleton, hv]
      simp [keepVotes, pruneVotes]
  · have hone : pruneVotes keepFrom [v] = [v] := by simp [pruneVotes, hv]
    have hsame : Keyed.get? voteKey (voteKey v) (pruneVotes keepFrom table) = none ↔
        Keyed.get? voteKey (voteKey v) table = none := by
      simp only [Keyed.get?_eq_none, pruneVotes, List.mem_filter]
      refine ⟨fun h w hw hkey => h w ⟨hw, ?_⟩ hkey, fun h w hw => h w hw.1⟩
      rw [voteKey_injective hkey]
      simpa using hv
    rw [hone]
    change _ = Keyed.keep voteKey v (pruneVotes keepFrom table)
    unfold Keyed.keep
    rcases hg : Keyed.get? voteKey (voteKey v) table with _ | w
    · rw [hsame.mpr hg, pruneVotes, List.filter_append]
      simp [pruneVotes, hv]
    · rcases hg' : Keyed.get? voteKey (voteKey v) (pruneVotes keepFrom table) with _ | w'
      · rw [hsame.mp hg'] at hg
        cases hg
      · rfl

/-- **Votes that are written and pruned** are those of the window, written over those of the window. -/
theorem prune_keepVotes (rows table : List Vote) : pruneVotes keepFrom (keepVotes rows table) =
    keepVotes (pruneVotes keepFrom rows) (pruneVotes keepFrom table) := by
  induction rows generalizing table with
  | nil => rfl
  | cons v rows ih =>
    change pruneVotes keepFrom (keepVotes rows (Keyed.keep voteKey v table)) = _
    rw [ih, prune_keep]
    change _ = keepVotes (([v] ++ rows).filter _) _
    rw [List.filter_append]
    exact (List.foldl_append ..).symm

/-- Votes that are there are not written. -/
theorem keepVotes_of_mem (h : ∀ v ∈ rows, v ∈ table) : keepVotes rows table = table := by
  induction rows with
  | nil => rfl
  | cons v rows ih =>
    change keepVotes rows (Keyed.keep voteKey v table) = table
    rw [Keyed.keep_of_mem (h v List.mem_cons_self) rfl]
    exact ih fun w hw => h w (List.mem_cons_of_mem _ hw)

/-- **Votes that are written and pruned again** change nothing. -/
theorem prune_keepVotes_again (rows table : List Vote) :
    pruneVotes keepFrom (keepVotes rows (pruneVotes keepFrom (keepVotes rows table))) =
      pruneVotes keepFrom (keepVotes rows table) := by
  have hpruned : pruneVotes keepFrom (pruneVotes keepFrom (keepVotes rows table)) =
      pruneVotes keepFrom (keepVotes rows table) := by
    simp [pruneVotes, List.filter_filter]
  rw [prune_keepVotes rows (pruneVotes keepFrom (keepVotes rows table)), hpruned, prune_keepVotes]
  exact keepVotes_of_mem fun v hv => mem_keepVotes.mpr (.inr hv)

end Votes

end Store

end StakeTrail
