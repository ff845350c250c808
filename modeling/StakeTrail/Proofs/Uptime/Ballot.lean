import Mathlib
import StakeTrail.Proofs.Chain.Roster
import StakeTrail.Proofs.Store.Commits

/-!
# Votes and the window in which they are kept

A signature votes when it commits to the block or to nil, and the vote is that of the owner whom the active set has for
it. Commits all of whose votes have an owner give exactly these (`mem_votesOf`); otherwise the first vote without one is
reported (`votesOf_unknown`).

The table holds each vote once, drops what lies below the window (`mem_pruneVotes`), and so has at most one vote of a
validator for each height of the window (`votes_le`).
-/

namespace StakeTrail

/-- A signature that commits to the block or to nil. -/
def Signature.IsVote (s : Signature) : Prop := s.flag = .commit ∨ s.flag = .nil

namespace Uptime

open Indexing.Consensus

variable {set : ActiveSet} {sigs : List Signature} {rows : List Vote} {found : List Evidence} {h : Nat}

/-- **The votes of a commit** are those of its voting signatures. -/
theorem mem_votes (hv : votes h set sigs = .ok rows) (v : Vote) :
    v ∈ rows ↔ v.block = h ∧ ∃ s ∈ sigs, s.IsVote ∧ set.owner? s.validator = some v.owner := by
  induction sigs generalizing rows with
  | nil =>
    cases hv
    simp
  | cons s sigs ih =>
    rw [votes] at hv
    split at hv
    · rename_i hvote
      rcases ho : set.owner? s.validator with _ | owner <;> rw [ho] at hv
      · cases hv
      rcases hrest : votes h set sigs with e | rest <;> rw [hrest] at hv <;> cases hv
      rw [List.mem_cons, ih hrest]
      constructor
      · rintro (rfl | ⟨hb, s', hs', hs⟩)
        · exact ⟨rfl, s, List.mem_cons_self, hvote, ho⟩
        · exact ⟨hb, s', List.mem_cons_of_mem _ hs', hs⟩
      · rintro ⟨hb, s', hs', hs⟩
        rcases List.mem_cons.mp hs' with rfl | hs'
        · rw [ho] at hs
          refine .inl ?_
          cases v
          simp_all
        · exact .inr ⟨hb, s', hs', hs⟩
    · rename_i hno
      rw [ih hv]
      constructor
      · rintro ⟨hb, s', hs', hs⟩
        exact ⟨hb, s', List.mem_cons_of_mem _ hs', hs⟩
      · rintro ⟨hb, s', hs', hs⟩
        rcases List.mem_cons.mp hs' with rfl | hs'
        · exact absurd hs.1 hno
        · exact ⟨hb, s', hs', hs⟩

/-- **A vote without an owner is reported**: the first one of the commit. -/
theorem votes_unknown (hno : ∃ s ∈ sigs, s.IsVote ∧ set.owner? s.validator = none) :
    ∃ s ∈ sigs, s.IsVote ∧ set.owner? s.validator = none ∧
      votes h set sigs = .error (.unknownValidator s.validator h) := by
  induction sigs with
  | nil =>
    obtain ⟨s, hs, -⟩ := hno
    cases hs
  | cons s sigs ih =>
    have later : (∃ s ∈ sigs, s.IsVote ∧ set.owner? s.validator = none) → _ := ih
    rw [votes]
    split
    · rename_i hvote
      rcases ho : set.owner? s.validator with _ | owner
      · exact ⟨s, List.mem_cons_self, hvote, ho, rfl⟩
      · obtain ⟨s', hs', hs⟩ := hno
        rcases List.mem_cons.mp hs' with rfl | hs'
        · rw [ho] at hs
          cases hs.2
        · obtain ⟨u, hu, huvote, hnone, hrest⟩ := later ⟨s', hs', hs⟩
          exact ⟨u, List.mem_cons_of_mem _ hu, huvote, hnone, by rw [hrest]; rfl⟩
    · rename_i hskip
      obtain ⟨s', hs', hs⟩ := hno
      rcases List.mem_cons.mp hs' with rfl | hs'
      · exact absurd hs.1 hskip
      · obtain ⟨u, hu, hrest⟩ := later ⟨s', hs', hs⟩
        exact ⟨u, List.mem_cons_of_mem _ hu, hrest⟩

/-- A commit all of whose votes have an owner. -/
theorem votes_ok (hall : ∀ s ∈ sigs, s.IsVote → set.owner? s.validator ≠ none) :
    ∃ rows, votes h set sigs = .ok rows := by
  induction sigs with
  | nil => exact ⟨[], rfl⟩
  | cons s sigs ih =>
    obtain ⟨rest, hrest⟩ := ih fun s' hs' => hall s' (List.mem_cons_of_mem _ hs')
    rw [votes]
    split
    · rename_i hvote
      rcases ho : set.owner? s.validator with _ | owner
      · exact absurd ho (hall s List.mem_cons_self hvote)
      · exact ⟨⟨owner, h⟩ :: rest, by rw [hrest]; rfl⟩
    · exact ⟨rest, hrest⟩

/-- **The votes of a batch** are those of its commits. -/
theorem mem_votesOf (hv : votesOf found = .ok rows) (v : Vote) :
    v ∈ rows ↔ ∃ e ∈ found, v.block = e.height ∧
      ∃ s ∈ e.signatures, s.IsVote ∧ e.active.owner? s.validator = some v.owner := by
  induction found generalizing rows with
  | nil =>
    cases hv
    simp
  | cons e found ih =>
    unfold votesOf at hv
    rcases he : votes e.height e.active e.signatures with why | here <;> simp only [he, bind, Except.bind] at hv
    · cases hv
    rcases hrest : votesOf found with why | others <;> simp only [hrest] at hv <;> cases hv
    rw [List.mem_append, mem_votes he, ih hrest, List.exists_mem_cons_iff]

/-- A signature of a batch that votes without an owner. -/
def Unowned (e : Evidence) (s : Signature) : Prop :=
  s ∈ e.signatures ∧ s.IsVote ∧ e.active.owner? s.validator = none

/-- **A vote without an owner fails a batch**, which names its validator and its height. -/
theorem votesOf_unknown (hno : ∃ e ∈ found, ∃ s, Unowned e s) :
    ∃ e ∈ found, ∃ s, Unowned e s ∧ votesOf found = .error (.unknownValidator s.validator e.height) := by
  induction found with
  | nil =>
    obtain ⟨e, he, -⟩ := hno
    cases he
  | cons e found ih =>
    unfold votesOf
    by_cases hhere : ∃ s, Unowned e s
    · obtain ⟨s, hs, hvote, hnone, herror⟩ := votes_unknown (h := e.height) (by simpa [Unowned] using hhere)
      exact ⟨e, List.mem_cons_self, s, ⟨hs, hvote, hnone⟩, by rw [herror]; rfl⟩
    · obtain ⟨e', he', hunowned⟩ := hno
      have hlater : ∃ e ∈ found, ∃ s, Unowned e s := by
        rcases List.mem_cons.mp he' with rfl | he'
        · exact absurd hunowned hhere
        · exact ⟨e', he', hunowned⟩
      obtain ⟨u, hu, s, hs, herror⟩ := ih hlater
      obtain ⟨rows, hrows⟩ : ∃ rows, votes e.height e.active e.signatures = .ok rows :=
        votes_ok fun s hs hvote hnone => hhere ⟨s, hs, hvote, hnone⟩
      exact ⟨u, List.mem_cons_of_mem _ hu, s, hs, by rw [hrows, herror]; rfl⟩

end Uptime

/-! ## The table of votes -/

namespace Store

open StakeTrail.Action Database Uptime

variable {t : Tables} {rows table : List Vote}

theorem voteKey_injective : Function.Injective voteKey := by
  rintro ⟨a, h⟩ ⟨b, k⟩ heq
  cases heq
  rfl

/-- The table after votes are written that are not there yet. -/
def keepVotes (rows table : List Vote) : List Vote := rows.foldl (fun table v => Keyed.keep voteKey v table) table

theorem mem_keepVotes {v : Vote} : v ∈ keepVotes rows table ↔ v ∈ table ∨ v ∈ rows := by
  unfold keepVotes
  induction rows generalizing table with
  | nil => simp
  | cons w rows ih =>
    have hkeep : v ∈ Keyed.keep voteKey w table ↔ v ∈ table ∨ v = w := by
      unfold Keyed.keep
      rcases hg : Keyed.get? voteKey (voteKey w) table with _ | u
      · simp
      · have hu : u = w := voteKey_injective (Keyed.key_of_get? hg)
        subst hu
        change v ∈ table ↔ v ∈ table ∨ v = u
        exact ⟨.inl, fun h => h.elim id fun heq => heq ▸ Keyed.mem_of_get? hg⟩
    rw [List.foldl_cons, ih, hkeep, List.mem_cons, or_assoc]

theorem nodup_keepVotes (h : table.Nodup) : (keepVotes rows table).Nodup := by
  unfold keepVotes
  induction rows generalizing table with
  | nil => exact h
  | cons w rows ih =>
    rw [List.foldl_cons]
    refine ih ?_
    unfold Keyed.keep
    rcases hg : Keyed.get? voteKey (voteKey w) table with _ | u
    · refine List.nodup_append.mpr ⟨h, by simp, fun a ha b hb => ?_⟩
      rintro rfl
      exact Keyed.get?_eq_none.mp hg a ha (by rw [List.mem_singleton.mp hb])
    · exact h

/-- Votes below the window are dropped, and no others. -/
theorem mem_pruneVotes {keepFrom : Nat} {v : Vote} (hv : v.block < 0x80000000) (hk : keepFrom ≤ 0x80000000) :
    v ∈ pruneVotes keepFrom table ↔ v ∈ table ∧ keepFrom ≤ v.block := by
  have hb : before v.block keepFrom = true ↔ v.block < keepFrom := by
    rw [before, Word.signed_of_lt (by omega), Word.signed_of_lt (by omega), decide_eq_true_eq, Int.ofNat_lt]
  unfold pruneVotes
  rw [List.mem_filter, Bool.not_eq_true', ← Bool.not_eq_true, hb, not_lt]

theorem votes_ends (name : String) (rows : List Vote) (keepFrom height : Nat) :
    Ends (Holds t) (Commit.votes name rows keepFrom height)
      (fun _ d => (∃ c, t.checkpoint? name = some c) ∧
        Holds (Tables.advance name height { t with votes := pruneVotes keepFrom (keepVotes rows t.votes) }) d)
      (Holds t) := by
  refine batch_found_ends_of (u := { t with votes := pruneVotes keepFrom (keepVotes rows t.votes) }) ?_
  have hrows := each_into_ends (t := t) (Keyed.keep voteKey) (fun t => t.votes)
    (fun rows t => { t with votes := rows }) (fun _ _ => rfl) (fun _ _ _ => rfl) (fun _ => rfl) rows
  exact hrows.bind fun _ => (write_ends _).fault fun _ _ => trivial

/-- **A window holds at most one vote of a validator for each of its heights.** -/
theorem votes_le (hn : table.Nodup) {low high : Nat} (hwindow : ∀ v ∈ table, v.block ∈ Finset.Ioc low high)
    (a : String) :
    (table.filter fun v => v.owner = a).length ≤ high - low := by
  have hnodup : ((table.filter fun v => v.owner = a).map Vote.block).Nodup := by
    refine List.Nodup.map_on ?_ (hn.filter _)
    rintro ⟨o, h⟩ hv ⟨p, k⟩ hw hblock
    have ho : o = a := by simpa using (List.mem_filter.mp hv).2
    have hp : p = a := by simpa using (List.mem_filter.mp hw).2
    rw [ho, hp, show h = k from hblock]
  have hsub : ((table.filter fun v => v.owner = a).map Vote.block).toFinset ⊆ Finset.Ioc low high := by
    intro h hh
    obtain ⟨v, hv, rfl⟩ := List.mem_map.mp (List.mem_toFinset.mp hh)
    exact hwindow v (List.mem_filter.mp hv).1
  have hcard := Finset.card_le_card hsub
  rwa [List.toFinset_card_of_nodup hnodup, List.length_map, Nat.card_Ioc] at hcard

end Store

end StakeTrail
