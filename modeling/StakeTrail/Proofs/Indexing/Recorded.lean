import Mathlib
import StakeTrail.Proofs.Indexing.TotalStake
import StakeTrail.Proofs.Stake.Annals

/-!
# Stored events and the history made of them

`Recorded` says that the table of events holds rows of the chain only, each once, and all rows of the heights up to some
height. For that the places of events have to be half words. Batches that leave no gap keep this (`Recorded.putAll`),
whatever heights are asked for again.

From such a table the changes of a range are those of the chain (`dueAt_changes`), with the times of its blocks
(`time_of_change`). The row that a range goes on from is the last one of the history (`latestHistory_ends`).
-/

namespace StakeTrail

open StakeTrail.Action Stake Staking Store Database

namespace Keyed

variable {α κ : Type} [DecidableEq κ] {key : α → κ}

/-- A row that agrees with the one of its key joins the others. -/
theorem mem_put_of_agree {a c : α} {table : List α} (h : ∀ b ∈ table, key b = key a → b = a) :
    c ∈ put key a table ↔ c = a ∨ c ∈ table := by
  induction table with
  | nil => simp [put]
  | cons b rest ih =>
    by_cases hb : key b = key a
    · have := h b List.mem_cons_self hb
      subst this
      simp [put]
    · rw [put, if_neg hb, List.mem_cons, ih fun d hd => h d (List.mem_cons_of_mem _ hd), List.mem_cons, or_left_comm]

/-- Rows that agree with those of their keys join the others. -/
theorem mem_putAll_of_agree {c : α} : ∀ {rows table : List α},
    (∀ a ∈ table ++ rows, ∀ b ∈ table ++ rows, key a = key b → a = b) →
      (c ∈ putAll key rows table ↔ c ∈ table ∨ c ∈ rows)
  | [], table, _ => by simp [putAll]
  | a :: rows, table, h => by
    have hput : ∀ d, d ∈ put key a table ↔ d = a ∨ d ∈ table := fun d =>
      mem_put_of_agree fun b hb => h b (by simp [hb]) a (by simp)
    have hrest : c ∈ putAll key rows (put key a table) ↔ c ∈ put key a table ∨ c ∈ rows := by
      refine mem_putAll_of_agree fun d hd e he => ?_
      refine h d ?_ e ?_
      · simp only [List.mem_append, hput] at hd
        simp only [List.mem_append, List.mem_cons]
        tauto
      · simp only [List.mem_append, hput] at he
        simp only [List.mem_append, List.mem_cons]
        tauto
    change c ∈ putAll key rows (put key a table) ↔ _
    rw [hrest, hput, List.mem_cons]
    tauto

/-- A row is there because it was written or because it was there before. -/
theorem mem_putAll {r : α} : ∀ {rows table : List α},
    r ∈ putAll key rows table → r ∈ rows ∨ r ∈ table
  | [], _, h => .inr h
  | a :: rows, table, h => by
    have h : r ∈ putAll key rows (put key a table) := h
    rcases mem_putAll h with h | h
    · exact .inl (List.mem_cons_of_mem _ h)
    · exact (mem_put h).imp (fun h : r = a => h ▸ List.mem_cons_self) id

/-- No key disappears, and those that are written are there. -/
theorem exists_key_putAll {k : κ} : ∀ {rows table : List α},
    ((∃ r ∈ rows, key r = k) ∨ ∃ r ∈ table, key r = k) → ∃ r ∈ putAll key rows table, key r = k
  | [], table, h => h.resolve_left fun ⟨_, hr, _⟩ => nomatch hr
  | a :: rows, table, h => by
    suffices hor : (∃ r ∈ rows, key r = k) ∨ ∃ r ∈ put key a table, key r = k from
      (exists_key_putAll hor : ∃ r ∈ putAll key rows (put key a table), key r = k)
    by_cases hk : key a = k
    · exact .inr ⟨a, mem_of_get? (by rw [get?_put, if_pos hk]), hk⟩
    · rcases h with ⟨r, hr, hrk⟩ | ⟨r, hr, hrk⟩
      · rcases List.mem_cons.mp hr with rfl | hr
        · exact absurd hrk hk
        · exact .inl ⟨r, hr, hrk⟩
      · rcases hget : get? key k table with _ | c
        · exact absurd hrk (get?_eq_none.mp hget r hr)
        · have hput : get? key k (put key a table) = some c := by rw [get?_put, if_neg hk, hget]
          exact .inr ⟨c, mem_of_get? hput, key_of_get? hput⟩

theorem nodup_putAll {rows table : List α} (h : (table.map key).Nodup) : ((putAll key rows table).map key).Nodup := by
  unfold putAll
  induction rows generalizing table with
  | nil => exact h
  | cons a rows ih => exact ih (nodup_put a h)

end Keyed

namespace Store

variable {t : Tables}

theorem consensusEvents_ends (name : String) (rows : List ConsensusEvent) (height : Nat) :
    Ends (Holds t) (Commit.consensusEvents name rows height)
      (fun _ d => (∃ c, t.checkpoint? name = some c) ∧ Holds (Tables.advance name height
        { t with consensusEvents := Keyed.putAll consensusEventKey rows t.consensusEvents }) d)
      (Holds t) :=
  batch_found_ends_of (u := { t with consensusEvents := Keyed.putAll consensusEventKey rows t.consensusEvents })
    (each_put_ends consensusEventKey (fun t => t.consensusEvents) (fun rows t => { t with consensusEvents := rows })
      (fun _ _ => rfl) (fun _ _ _ => rfl) (fun _ => rfl) rows)

theorem history_ends (name : String) (rows : List HistoryPoint) (height : Nat) :
    Ends (Holds t) (Commit.history name rows height)
      (fun _ d => (∃ c, t.checkpoint? name = some c) ∧
        Holds (Tables.advance name height { t with history := settle rows t.history }) d)
      (Holds t) := by
  refine batch_found_ends_of (u := { t with history := settle rows t.history }) ?_
  refine (Ends.each (I := fun done => Holds { t with history := settle done t.history }) (fun done row _ => ?_)
    []).post fun _ _ hd => hd
  rw [settle_concat]
  exact ((write_ends _).fault fun _ _ => trivial).bind fun _ => (write_ends _).fault fun _ _ => trivial

/-- The first row of the history, where its second is taken already. -/
theorem placeHistory_of_mem {row r : HistoryPoint} {rows : List HistoryPoint} (hr : r ∈ rows) (h : r.time = row.time) :
    placeHistory row rows = rows := by
  have hany : rows.any (fun r => r.block = row.block || r.time = row.time) = true :=
    List.any_eq_true.mpr ⟨r, hr, by simp [h]⟩
  rw [placeHistory, if_pos hany]

end Store

/-! ## Recorded events -/

/-- **What the table of events holds** when the heights up to `E` are in it. -/
structure Recorded (chain : ConsensusChain) (E : Nat) (events : List ConsensusEvent) : Prop where
  numbered : chain.Numbered
  nodup : (events.map consensusEventKey).Nodup
  sound : ∀ e ∈ events, e.block < 0x80000000 ∧ e ∈ chain.rows e.block
  complete : ∀ h ∈ Finset.Icc 1 E, chain.Classified h ∧ ∀ e ∈ chain.rows h, e ∈ events

namespace Recorded

variable {chain : ConsensusChain} {E : Nat} {events : List ConsensusEvent}

protected theorem nil (hn : chain.Numbered) : Recorded chain 0 [] where
  numbered := hn
  nodup := List.nodup_nil
  sound := by simp
  complete := by simp

/-- **A batch that leaves no gap** records the heights up to its end. -/
theorem putAll (hr : Recorded chain E events) {first last : Nat} {rows : List ConsensusEvent} (hfirst : first ≤ E + 1)
    (hlast : last < 0x80000000)
    (hall : ∀ h, first ≤ h → h < first + (last + 1 - first) → chain.Classified h)
    (hmem : ∀ r, r ∈ rows ↔ ∃ h, first ≤ h ∧ h < first + (last + 1 - first) ∧ r ∈ chain.rows h) :
    Recorded chain (max E last) (Keyed.putAll consensusEventKey rows events) := by
  have hsound : ∀ e ∈ events ++ rows, e.block < 0x80000000 ∧ e ∈ chain.rows e.block := by
    intro e he
    rcases List.mem_append.mp he with he | he
    · exact hr.sound e he
    · obtain ⟨h, h₁, h₂, he⟩ := (hmem e).mp he
      have hb := ConsensusChain.rows_block he
      subst hb
      exact ⟨by omega, he⟩
  have hagree : ∀ a ∈ events ++ rows, ∀ b ∈ events ++ rows, consensusEventKey a = consensusEventKey b → a = b := by
    intro a ha b hb hkey
    obtain ⟨hblock, hindex⟩ := Prod.mk.inj hkey
    exact ConsensusChain.mem_rows_unique hr.numbered (hsound a ha).2 (hblock ▸ (hsound b hb).2) hindex
  have hput : ∀ e, e ∈ Keyed.putAll consensusEventKey rows events ↔ e ∈ events ∨ e ∈ rows := fun e =>
    Keyed.mem_putAll_of_agree hagree
  refine ⟨hr.numbered, Keyed.nodup_putAll hr.nodup, fun e he => hsound e (List.mem_append.mpr ((hput e).mp he)),
    fun h hh => ?_⟩
  rw [Finset.mem_Icc] at hh
  by_cases hE : h ≤ E
  · obtain ⟨hc, hrows⟩ := hr.complete h (Finset.mem_Icc.mpr (by omega))
    exact ⟨hc, fun e he => (hput e).mpr (.inl (hrows e he))⟩
  · exact ⟨hall h (by omega) (by omega),
      fun e he => (hput e).mpr (.inr ((hmem e).mpr ⟨h, by omega, by omega, he⟩))⟩

/-- The stored events of a recorded height are its rows. -/
theorem perm_rows (hr : Recorded chain E events) {h : Nat} (hh : h ∈ Finset.Icc 1 E) :
    (events.filter fun e => e.block = h).Perm (chain.rows h) := by
  refine (List.perm_ext_iff_of_nodup (hr.nodup.of_map _ |>.filter _)
    (ConsensusChain.nodup_rows hr.numbered h)).mpr fun e => ?_
  rw [List.mem_filter, decide_eq_true_eq]
  constructor
  · rintro ⟨he, rfl⟩
    exact (hr.sound e he).2
  · exact fun he => ⟨(hr.complete h hh).2 e he, ConsensusChain.rows_block he⟩

/-- **What stored events add up to at a recorded height.** -/
theorem due_eq (hr : Recorded chain E events) {h : Nat} (hh : h ∈ Finset.Icc 1 E) :
    dueOf (events.filterMap fun e => if e.block = h then e.change? else none) = chain.due h := by
  have hfilter : events.filterMap (fun e => if e.block = h then e.change? else none) =
      (events.filter fun e => e.block = h).filterMap ConsensusEvent.change? := by
    rw [List.filterMap_filter]
    refine List.filterMap_congr fun e _ => ?_
    by_cases he : e.block = h <;> simp [he]
  rw [hfilter]
  exact dueOf_perm ((hr.perm_rows hh).filterMap _)

end Recorded

/-! ## The changes of a range -/

namespace Indexing

variable {chain : ConsensusChain} {genesis : Genesis} {E C : Nat} {events : List ConsensusEvent}
  {blocks : List ConsensusBlock} {first last : Nat}

/-- The events of a range that are changes. -/
def changesOf (first last : Nat) (events : List ConsensusEvent) : List ConsensusEvent :=
  (events.filter fun e =>
    notAfter first e.block && notAfter e.block last && e.succeeded && (e.kind = .stake || e.kind = .unstake)).mergeSort
      eventInOrder

theorem change?_ne_none {e : ConsensusEvent} :
    e.change? ≠ none ↔ e.succeeded = true ∧ (e.kind = .stake ∨ e.kind = .unstake) := by
  unfold ConsensusEvent.change?
  by_cases hs : e.succeeded = true
  · cases hk : e.kind <;> simp [hs]
  · simp [hs]

theorem mem_changesOf (hr : Recorded chain E events) (hfirst : first ≤ last) (hlast : last < 0x80000000)
    {e : ConsensusEvent} :
    e ∈ changesOf first last events ↔ e ∈ events ∧ first ≤ e.block ∧ e.block ≤ last ∧ e.change? ≠ none := by
  rw [changesOf, List.mem_mergeSort, List.mem_filter, change?_ne_none]
  refine and_congr_right fun he => ?_
  have hb := (hr.sound e he).1
  simp only [Bool.and_eq_true, Bool.or_eq_true, decide_eq_true_eq, notAfter_iff (show first < 0x80000000 by omega) hb,
    notAfter_iff hb hlast, and_assoc]

/-- A stored event, read as a change, is worth the same. -/
theorem changeOf_eq {e : ConsensusEvent} (hb : e.block < 0x80000000) (hs : e.succeeded = true) :
    (changeOf blocks e).block = e.block ∧ (changeOf blocks e).signed? = e.change? := by
  constructor
  · simp only [changeOf]
    exact Word.readBack_of_lt hb
  · cases hk : e.kind <;> simp only [changeOf, Change.signed?, ConsensusEvent.change?, hs, hk, if_true]

theorem dueAt_map {f : ConsensusEvent → Change} {l : List ConsensusEvent}
    (hf : ∀ e ∈ l, (f e).block = e.block ∧ (f e).signed? = e.change?) (h : Nat) :
    dueAt (l.map f) h = dueOf (l.filterMap fun e => if e.block = h then e.change? else none) := by
  rw [dueAt, List.filterMap_map]
  refine congrArg dueOf (List.filterMap_congr fun e he => ?_)
  obtain ⟨hblock, hsigned⟩ := hf e he
  rw [Function.comp, hblock, hsigned]

/-- **The changes of a range of recorded heights** add up to what is due at each of them. -/
theorem dueAt_changes (hr : Recorded chain E events) (hE : E < 0x80000000) (hfirst : 1 ≤ first) (hle : first ≤ last)
    (hlast : last ≤ E) (h : Nat) :
    dueAt ((changesOf first last events).map (changeOf blocks)) h =
      if first ≤ h ∧ h ≤ last then chain.due h else none := by
  have hmem := fun e => mem_changesOf (e := e) hr hle (show last < 0x80000000 by omega)
  have hstored := dueAt_map (f := changeOf blocks) (l := changesOf first last events) (fun e he => by
    obtain ⟨hev, -, -, hne⟩ := (hmem e).mp he
    exact changeOf_eq (hr.sound e hev).1 (change?_ne_none.mp hne).1) h
  rw [hstored]
  split
  · rename_i hin
    rw [← hr.due_eq (Finset.mem_Icc.mpr (by omega))]
    have hperm := (List.mergeSort_perm (events.filter fun e => notAfter first e.block && notAfter e.block last &&
      e.succeeded && (e.kind = .stake || e.kind = .unstake)) eventInOrder).filterMap
        fun e => if e.block = h then e.change? else none
    rw [changesOf, dueOf_perm hperm, List.filterMap_filter]
    refine congrArg dueOf (List.filterMap_congr fun e he => ?_)
    -- an event of the height that is passed over is no change
    split
    · rfl
    · rename_i hpassed
      split
      · rename_i hblock
        by_contra hne
        refine hpassed (List.mem_filter.mp (List.mem_mergeSort.mp ((hmem e).mpr ⟨he, ?_, ?_, Ne.symm hne⟩))).2 <;> omega
      · rfl
  · rename_i hout
    rw [dueOf_eq_none, List.filterMap_eq_nil_iff]
    intro e he
    obtain ⟨-, h₁, h₂, -⟩ := (hmem e).mp he
    rw [if_neg fun hb => hout (by omega)]

/-- The time that comes with a change is that of its block. -/
theorem time_of_change (ht : Timely chain blocks) {e : ConsensusEvent} {time : Int}
    (h : (changeOf blocks e).time = some time) : time = chain.time e.block := by
  simp only [changeOf] at h
  rcases hg : Keyed.get? ConsensusBlock.height e.block blocks with _ | b <;> simp only [hg] at h
  · have hnone : Word.low (((none : Option ConsensusBlock).map (·.time)).getD noTime) = noTime := rfl
    rw [if_pos hnone] at h
    cases h
  · have hheight : b.height = e.block := Keyed.key_of_get? hg
    have htime := (ht b (Keyed.mem_of_get? hg)).1
    have h₁ := chain.time_nonneg b.height
    have h₂ := chain.time_lt b.height
    have hlow : Word.low (((some b).map (·.time)).getD noTime) = chain.time e.block := by
      rw [Option.map_some, Option.getD_some, htime, Word.low_of_lt (by omega) h₂, hheight]
    rw [hlow] at h
    split at h <;> cases h
    rfl

/-! ## The last row -/

/-- **The row that a range goes on from.** -/
theorem latestHistory_ends {t : Tables} (ht : t.history = chain.annals genesis C) (hC : C < 0x80000000)
    (hg : genesis.block < 0x80000000) (h₀ : 0 ≤ chain.heldAt genesis C) (h₁ : chain.heldAt genesis C < 0x80000000) :
    Ends (Holds t) latestHistory
      (fun r d => (∃ r', r = some r' ∧ r'.block = (chain.latest genesis C).block ∧
        r'.amount = chain.heldAt genesis C) ∧ Holds t d) (Holds t) := by
  obtain ⟨hmem, hmax, hamount, -⟩ := chain.annals_latest genesis C
  have hblock : ∀ r ∈ chain.annals genesis C, r.block < 0x80000000 := fun r hr => by
    have := (ConsensusChain.block_le_of_mem hr).2
    omega
  have hlead : leading? (fun a b : HistoryPoint => notAfter b.block a.block) t.history =
      some (chain.latest genesis C) := by
    rw [ht]
    refine leading?_eq ?_ ?_ hmem fun r hr hr' => ?_
    · simp only [notAfter, decide_eq_true_eq]
      omega
    · simp only [notAfter, Bool.or_eq_true, decide_eq_true_eq]
      omega
    · -- a row as high as the last one is the last one
      have hge := (notAfter_iff (hblock _ hmem) (hblock _ hr)).mp hr'
      exact List.inj_on_of_nodup_map (ConsensusChain.nodup_annals_block C) hr hmem (le_antisymm (hmax r hr) hge)
  refine (query_ends _).post ?_
  rintro r d ⟨rfl, hd⟩
  refine ⟨⟨readBackHistory (chain.latest genesis C), ?_, ?_, ?_⟩, hd⟩
  · rw [hlead, Option.map_some]
  · rw [readBackHistory, Word.readBack_of_lt (hblock _ hmem)]
  · rw [readBackHistory, hamount, Word.low_of_lt (by omega) h₁]

end Indexing

end StakeTrail
