import StakeTrail.Proofs.Store.Atomic
import StakeTrail.Proofs.Store.NormalTexts

/-!
# Rows found by a text

`Answers t x a` says that a query `x` about the tables `t` is answered with `a`. `Finds t q v` says that whoever asks with
the text `q` finds the rows of the address `v` and no others: its rewards, its active interval, its operations and its
votes.

**In findable tables a stored ASCII address is found in any letter case** (`Findable.finds`).
-/

namespace StakeTrail.Store

open StakeTrail.Action Address Database

variable {α β : Type} {t : Tables} {a : α} {b : β} {q v : String}

/-! ## Answers -/

/-- **What is answered** about some tables, by a database that refuses no statement. Asking changes nothing. -/
def Answers (t : Tables) (x : Action Database α) (a : α) : Prop :=
  ∀ d : Database, d.tables = t → (∀ n, d.refusal n = none) →
    ∃ d', x d = (.ok a, d') ∧ d'.tables = t ∧ ∀ n, d'.refusal n = none

namespace Answers

protected theorem pure (a : α) : Answers t (pure a) a := fun d ht hd => ⟨d, rfl, ht, hd⟩

protected theorem ofExcept {r : Except Fault α} (h : r = .ok a) : Answers t (Action.ofExcept r) a := by
  rw [h]
  exact .pure a

protected theorem query (f : Tables → α) : Answers t (query f) (f t) := by
  rintro d rfl hd
  refine ⟨{ d with statements := d.statements + 1 }, ?_, rfl, hd⟩
  unfold query statement
  rw [hd]

/-- One question after another. -/
protected theorem bind {x : Action Database α} {f : α → Action Database β} (hx : Answers t x a)
    (hf : Answers t (f a) b) : Answers t (x >>= f) b := by
  intro d ht hd
  obtain ⟨d', hx, ht', hd'⟩ := hx d ht hd
  obtain ⟨d'', hf, h⟩ := hf d' ht' hd'
  refine ⟨d'', ?_, h⟩
  rw [bind_apply, hx]
  exact hf

end Answers

/-! ## The row of an address -/

/-- **The rewards of an address** are those of its row. -/
theorem reward_answers (h : Findable t) {r : RewardRow} (hr : r ∈ t.rewards) (hq : Text.Case.lower q = r.address) :
    ∃ n : Nat, r.amount = toString n ∧ Answers t (reward q) (some ⟨r.address, n, Word.readBack r.height⟩) := by
  obtain ⟨n, hn⟩ := h.amounts r hr
  have hrow : Keyed.get? RewardRow.address (Text.Case.lower q) t.rewards = some r :=
    (Keyed.get?_iff h.rewards_once).mpr ⟨hr, hq.symm⟩
  have hamount : readReward r.amount = .ok n := by rw [hn, Batch.readReward_toString]
  refine ⟨n, hn, ?_⟩
  apply Answers.bind (.query _)
  rw [hrow]
  exact (Answers.ofExcept hamount).bind (.pure _)

/-- **The active interval of an address** is that of its row. -/
theorem interval_answers (h : Findable t) {i : Uptime.Interval} (hi : i ∈ t.intervals)
    (hq : Text.Case.lower q = i.owner) :
    Answers t (interval q)
      (some ⟨i.owner, Word.readBack i.first, Word.readBack i.last, Word.readBack i.votes⟩) := by
  have hrow : Keyed.get? Uptime.Interval.owner (Text.Case.lower q) t.intervals = some i :=
    (Keyed.get?_iff h.intervals_once).mpr ⟨hi, hq.symm⟩
  have hanswer : Answers t (interval q)
      ((Keyed.get? Uptime.Interval.owner (Text.Case.lower q) t.intervals).map readBackInterval) := .query _
  rwa [hrow] at hanswer

/-! ## Operations -/

/-- A page of some pairs of a log and an event, as it is handed back. -/
def pageOf (page size : Nat) (found : List (Staking.ExecutionEvent × Staking.ConsensusEvent)) : Page where
  total := Word.readBack found.length
  items :=
    ((found.drop ((max page 1 - 1) * max 1 (min size largestPage))).take (max 1 (min size largestPage))).map fun p =>
      Operation.ofEvents p.1 p.2

/-- **A log is joined to an event** just if it is of the address and both are of one transaction. -/
theorem mem_joinedOperations {el : Staking.ExecutionEvent} {cl : Staking.ConsensusEvent} :
    (el, cl) ∈ joinedOperations t v ↔
      el ∈ t.executionEvents ∧ el.address = v ∧ cl ∈ t.consensusEvents ∧ cl.txHash = el.txHash := by
  unfold joinedOperations
  simp only [List.mem_mergeSort, List.mem_flatMap, List.mem_filter, List.mem_map, decide_eq_true_eq, Prod.mk.injEq]
  constructor
  · rintro ⟨el', ⟨hel, hv⟩, cl', ⟨hcl, hhash⟩, rfl, rfl⟩
    exact ⟨hel, hv, hcl, hhash⟩
  · rintro ⟨hel, hv, hcl, hhash⟩
    exact ⟨el, ⟨hel, hv⟩, cl, ⟨hcl, hhash⟩, rfl, rfl⟩

/-- Each pair is found once. -/
theorem nodup_joinedOperations (hel : (t.executionEvents.map executionEventKey).Nodup)
    (hcl : (t.consensusEvents.map consensusEventKey).Nodup) (v : String) : (joinedOperations t v).Nodup := by
  have hel : t.executionEvents.Nodup := hel.of_map
  have hcl : t.consensusEvents.Nodup := hcl.of_map
  unfold joinedOperations
  rw [(List.mergeSort_perm _ _).nodup_iff, List.nodup_flatMap]
  constructor
  · intro el _
    apply List.Nodup.map
    · intro cl cl' heq
      exact (Prod.mk.inj heq).2
    · exact hcl.filter _
  · -- pairs of different logs differ in the log
    refine (hel.filter _).imp fun {el el'} hne => ?_
    intro p hp hp'
    obtain ⟨cl, -, rfl⟩ := List.mem_map.mp hp
    obtain ⟨cl', -, heq⟩ := List.mem_map.mp hp'
    exact hne (Prod.mk.inj heq).1.symm

/-- **The operations of an address** are its logs with the events of their transactions, page by page. -/
theorem operations_answers (hq : Text.Case.lower q = v) (page size : Nat) :
    Answers t (operations q page size) (pageOf page size (joinedOperations t v)) := by
  subst hq
  unfold operations
  apply Answers.bind (.query _)
  apply Answers.bind (.query _)
  exact .pure _

/-! ## Votes -/

/-- The number of votes of an address, as it is handed back. -/
def votesFor (t : Tables) (v : String) : Nat := Word.readBack (t.votes.filter fun vote => vote.owner = v).length

/-- What is counted for some addresses, and for all that voted where none is named. -/
def countsOf (t : Tables) (asked : List String) : List (String × Nat) :=
  (((t.votes.map (·.owner)).eraseDups.filter fun o =>
    (asked.map Text.Case.lower).isEmpty || (asked.map Text.Case.lower).contains o).mergeSort fun a b =>
      decide (a ≤ b)).map fun o => (o, votesFor t o)

theorem voteCounts_eq (asked : List String) : Answers t (voteCounts asked) (countsOf t asked) := .query _

/-- **What is counted**: the votes of each address that voted and was asked for, once. -/
theorem mem_countsOf {asked : List String} (hne : asked ≠ []) {n : Nat} :
    (v, n) ∈ countsOf t asked ↔
      (∃ vote ∈ t.votes, vote.owner = v) ∧ (∃ q ∈ asked, Text.Case.lower q = v) ∧ n = votesFor t v := by
  have hasked : (asked.map Text.Case.lower).isEmpty = false := by simpa using hne
  unfold countsOf
  simp only [hasked, Bool.false_or, List.mem_map, List.mem_mergeSort, List.mem_filter, List.mem_eraseDups,
    List.contains_iff_mem, Prod.mk.injEq]
  constructor
  · rintro ⟨o, ⟨hvoted, hnamed⟩, rfl, rfl⟩
    exact ⟨hvoted, hnamed, rfl⟩
  · rintro ⟨hvoted, hnamed, hn⟩
    exact ⟨v, ⟨hvoted, hnamed⟩, rfl, hn.symm⟩

theorem nodup_eraseDups : ∀ names : List String, names.eraseDups.Nodup
  | [] => by simp
  | name :: names => by
    rw [List.eraseDups_cons, List.nodup_cons]
    refine ⟨?_, nodup_eraseDups (names.filter fun other => !other == name)⟩
    simp [List.mem_eraseDups]
termination_by names => names.length
decreasing_by exact Nat.lt_succ_of_le (List.length_filter_le _ _)

theorem nodup_countsOf (t : Tables) (asked : List String) : ((countsOf t asked).map Prod.fst).Nodup := by
  unfold countsOf
  rw [List.map_map]
  have hfst : (Prod.fst ∘ fun o => (o, votesFor t o)) = id := rfl
  rw [hfst, List.map_id, (List.mergeSort_perm _ _).nodup_iff]
  exact (nodup_eraseDups _).filter _

/-- **The votes of an address**: asked for alone, nothing else is counted. -/
theorem countsOf_singleton (hv : ∃ vote ∈ t.votes, vote.owner = v) (hq : Text.Case.lower q = v) :
    countsOf t [q] = [(v, votesFor t v)] := by
  have hmem : ∀ p, p ∈ countsOf t [q] ↔ p = (v, votesFor t v) := by
    rintro ⟨o, n⟩
    rw [mem_countsOf (by simp), Prod.mk.injEq]
    constructor
    · rintro ⟨-, ⟨q', hq', ho⟩, hn⟩
      obtain rfl : o = v := by rw [← ho, List.mem_singleton.mp hq', hq]
      exact ⟨rfl, hn⟩
    · rintro ⟨rfl, hn⟩
      exact ⟨hv, ⟨q, List.mem_singleton_self q, hq⟩, hn⟩
  have hnodup : (countsOf t [q]).Nodup := (nodup_countsOf t [q]).of_map
  have hperm : (countsOf t [q]).Perm [(v, votesFor t v)] := by
    rw [List.perm_ext_iff_of_nodup hnodup (List.nodup_singleton _)]
    intro p
    rw [hmem, List.mem_singleton]
  exact List.perm_singleton.mp hperm

/-! ## All lookups -/

/-- **What is found with a text** `q` for the address `v`: its rows, and no others. -/
structure Finds (t : Tables) (q v : String) : Prop where
  reward : ∀ r ∈ t.rewards, r.address = v →
    ∃ n : Nat, r.amount = toString n ∧ Answers t (reward q) (some ⟨v, n, Word.readBack r.height⟩)
  interval : ∀ i ∈ t.intervals, i.owner = v → Answers t (interval q) (some {
    owner := v
    first := Word.readBack i.first
    last := Word.readBack i.last
    votes := Word.readBack i.votes })
  /-- Each log of the address, with each event of its transaction. -/
  operations : ∀ e ∈ t.executionEvents, e.address = v → ∃ found : List (Staking.ExecutionEvent × Staking.ConsensusEvent),
    found.Nodup ∧
    (∀ el cl, (el, cl) ∈ found ↔
      el ∈ t.executionEvents ∧ el.address = v ∧ cl ∈ t.consensusEvents ∧ cl.txHash = el.txHash) ∧
    ∀ page size, Answers t (operations q page size) (pageOf page size found)
  /-- Asked for alone, the address is all that is counted; among others it is counted once. -/
  votes : ∀ vote ∈ t.votes, vote.owner = v → Answers t (voteCounts [q]) [(v, votesFor t v)] ∧
    ∀ asked, q ∈ asked → ∃ counts, Answers t (voteCounts asked) counts ∧ (counts.map Prod.fst).Nodup ∧
      (v, votesFor t v) ∈ counts

/-- **A stored ASCII address is found in any letter case.** -/
theorem Findable.finds (h : Findable t) (hq : Text.SameLetters q v) (hascii : Text.IsAscii v) : Finds t q v where
  reward := by
    rintro r hr rfl
    exact reward_answers h hr ((h.rewards r hr).lower_eq hascii hq)
  interval := by
    rintro i hi rfl
    exact interval_answers h hi ((h.intervals i hi).lower_eq hascii hq)
  operations := by
    rintro e he rfl
    have hnormal : IsNormal e.address := h.executionEvents e he e.address (by simp [Staking.ExecutionEvent.texts])
    exact ⟨joinedOperations t e.address, nodup_joinedOperations h.executionEvents_once h.consensusEvents_once e.address,
      fun _ _ => mem_joinedOperations, operations_answers (hnormal.lower_eq hascii hq)⟩
  votes := by
    rintro vote hvote rfl
    have hlower : Text.Case.lower q = vote.owner := (h.votes vote hvote).lower_eq hascii hq
    constructor
    · rw [← countsOf_singleton ⟨vote, hvote, rfl⟩ hlower]
      exact voteCounts_eq [q]
    · intro asked hasked
      refine ⟨countsOf t asked, voteCounts_eq asked, nodup_countsOf t asked, ?_⟩
      exact (mem_countsOf (List.ne_nil_of_mem hasked)).mpr ⟨⟨vote, hvote, rfl⟩, ⟨q, hasked, hlower⟩, rfl⟩

end StakeTrail.Store
