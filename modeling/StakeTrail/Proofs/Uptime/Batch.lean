import StakeTrail.Proofs.Uptime.Membership

/-!
# Following validators through a batch

A tracker `Followed` a roster when the entry of each consensus address is the interval that the heights so far leave of
its owner. One more height keeps this (`Followed.step`), so a whole batch does (`Followed.trackAll`), and the rows of
the batch hold one interval for each owner that was active in it (`Followed.get?_rows`).
-/

namespace StakeTrail

open Uptime Indexing.Consensus

/-! ## Trackers -/

namespace Uptime.Tracker

/-- What a tracker holds for a consensus address. -/
def held? (tracker : Tracker) (k : String) : Option Interval := (Keyed.get? Prod.fst k tracker).map (·.2)

theorem held?_put (tracker : Tracker) (k l : String) (i : Interval) :
    held? (Keyed.put Prod.fst (k, i) tracker) l = if k = l then some i else held? tracker l := by
  rw [held?, Keyed.get?_put]
  split <;> rfl

theorem extend_eq {height : Nat} {owner : String} {stored : Option Interval} {i : Interval}
    (h : extend height owner stored = .ok i) : i = resumed height owner stored := by
  rcases stored with _ | s
  · cases h
    rfl
  · unfold extend at h
    rcases hn : successor s.last with e | next <;> simp only [hn, bind, Except.bind] at h
    · cases h
    · obtain rfl := successor_eq hn
      unfold resumed
      split at h <;> cases h <;> simp [*]

/-- **The members of a set** get the height, and all else stays. -/
theorem addSet_held? {height : Nat} : ∀ {set : ActiveSet} {tracker tracker' : Tracker},
    addSet height tracker set = .ok tracker' → (set.map Prod.fst).Nodup → ∀ k,
    tracker'.held? k =
      match Keyed.get? Prod.fst k set with
      | some (_, owner) => some (resumed height owner (tracker.held? k))
      | none => tracker.held? k
  | [], _, _, h, _, _ => by
    cases h
    rfl
  | (l, owner) :: set, tracker, tracker', h, hn, k => by
    obtain ⟨hl, hset⟩ := List.nodup_cons.mp hn
    rw [addSet] at h
    rcases he : extend height owner ((Keyed.get? Prod.fst l tracker).map (·.2)) with e | i <;> rw [he] at h
    · cases h
    have hi := extend_eq he
    subst hi
    rw [addSet_held? h hset k, held?_put]
    by_cases hlk : l = k
    · subst hlk
      have hnone : Keyed.get? Prod.fst l set = none :=
        Keyed.get?_eq_none.mpr fun p hp hpl => hl (List.mem_map.mpr ⟨p, hp, hpl⟩)
      simp only [hnone, Keyed.get?, if_true]
      rfl
    · simp only [Keyed.get?, hlk, if_false]

/-- **A commit** adds the signatures of each tracked address to its votes. -/
theorem addCommit_held? (signatures : List Signature) (tracker : Tracker) (k : String) :
    (tracker.addCommit signatures).held? k =
      (tracker.held? k).map fun i =>
        i.plus (signatures.countP fun s => s.flag == .commit && setKey s.validator == k) := by
  unfold addCommit
  induction signatures generalizing tracker with
  | nil =>
    rw [List.foldl_nil]
    rcases tracker.held? k with _ | i <;> rfl
  | cons s signatures ih =>
    rw [List.foldl_cons, ih, List.countP_cons]
    by_cases hflag : s.flag = .commit
    · rw [if_pos hflag, hflag]
      rcases hg : Keyed.get? Prod.fst (setKey s.validator) tracker with _ | ⟨l, i⟩
      · have hk : tracker.held? k = none ∨ (setKey s.validator == k) = false := by
          by_cases hkey : setKey s.validator = k
          · exact .inl (by rw [held?, ← hkey, hg]; rfl)
          · exact .inr (by simpa using hkey)
        rcases hk with hk | hk <;> simp [hk]
      · have hl : l = setKey s.validator := Keyed.key_of_get? hg
        subst hl
        simp only [held?_put]
        by_cases hkey : setKey s.validator = k
        · subst hkey
          simp [held?, hg, Interval.plus, Nat.add_assoc, Nat.add_comm]
        · simp [hkey]
    · rw [if_neg hflag]
      have : (s.flag == VoteFlag.commit) = false := by simpa using hflag
      simp [this]

theorem nodup_addSet {height : Nat} : ∀ {set : ActiveSet} {tracker tracker' : Tracker},
    addSet height tracker set = .ok tracker' → (tracker.map Prod.fst).Nodup → (tracker'.map Prod.fst).Nodup
  | [], _, _, h, hn => by
    cases h
    exact hn
  | (l, owner) :: set, tracker, tracker', h, hn => by
    rw [addSet] at h
    rcases he : extend height owner ((Keyed.get? Prod.fst l tracker).map (·.2)) with e | i <;> rw [he] at h
    · cases h
    exact nodup_addSet h (Keyed.nodup_put _ hn)

theorem nodup_addCommit (signatures : List Signature) {tracker : Tracker} (hn : (tracker.map Prod.fst).Nodup) :
    ((tracker.addCommit signatures).map Prod.fst).Nodup := by
  unfold addCommit
  induction signatures generalizing tracker with
  | nil => exact hn
  | cons s signatures ih =>
    rw [List.foldl_cons]
    refine ih ?_
    split
    · split
      · exact Keyed.nodup_put _ hn
      · exact hn
    · exact hn

end Uptime.Tracker

/-! ## Batches -/

/-- **A tracker follows a roster** over the heights `c + 1 … c + n`: it knows addresses of the roster only, each once,
and has the interval of each. -/
structure Roster.Followed (roster : Roster) (c n : Nat) (tracker : Tracker) : Prop where
  nodup : (tracker.map Prod.fst).Nodup
  known : ∀ k, tracker.held? k ≠ none → ∃ a, roster.Owns k a
  entry : ∀ k a, roster.Owns k a → tracker.held? k = (roster.attendance a).since c n

namespace Roster.Followed

variable {roster : Roster} {c n : Nat} {tracker tracker' : Tracker}

protected theorem nil (roster : Roster) (c : Nat) : roster.Followed c 0 [] where
  nodup := List.nodup_nil
  known _ h := absurd rfl h
  entry _ _ _ := rfl

/-- **One more height.** -/
theorem step (hc : roster.Consistent) (hf : roster.Followed c n tracker) {set : ActiveSet} {seen : Tracker}
    (hset : ActiveSet.ofValidators (roster.validators (c + n + 1)) = .ok set)
    (hseen : tracker.addSet (c + n + 1) set = .ok seen) :
    roster.Followed c (n + 1) (seen.addCommit (roster.commit (c + n + 1))) := by
  have hview := Tracker.addSet_held? hseen (ActiveSet.nodup_ofValidators hset)
  refine ⟨Tracker.nodup_addCommit _ (Tracker.nodup_addSet hseen hf.nodup), fun k hk => ?_, fun k a hk => ?_⟩
  · rw [Tracker.addCommit_held?, hview] at hk
    rcases hg : Keyed.get? Prod.fst k set with _ | ⟨l, a⟩
    · simp only [hg, ne_eq, Option.map_eq_none_iff] at hk
      exact hf.known k hk
    · have hl : l = k := Keyed.key_of_get? hg
      subst hl
      rcases ActiveSet.extendWith_mem hset _ (Keyed.mem_of_get? hg) with hnil | ⟨v, hv, hva⟩
      · cases hnil
      · exact ⟨a, _, v, hv, hva⟩
  · have hcount : (roster.commit (c + n + 1)).countP (fun s => s.flag == .commit && setKey s.validator == k) =
        (roster.attendance a).signed (c + n + 1) :=
      List.countP_congr fun s hs => by rw [Roster.commits_eq hc hk hs]
    rw [Tracker.addCommit_held?, hview, ActiveSet.get?_ofValidators hc hset hk, hcount, hf.entry k a hk]
    cases hact : roster.isActive a (c + n + 1) with
    | true => rw [Attendance.since_of_active (v := roster.attendance a) hact]; rfl
    | false =>
      -- who is not active does not sign either
      have hnone : (roster.attendance a).signed (c + n + 1) = 0 := by
        refine List.countP_eq_zero.mpr fun s _ hs => ?_
        simp only [commits, Bool.and_eq_true, List.any_eq_true, beq_iff_eq] at hs
        obtain ⟨-, v, hv, hva, -⟩ := hs
        rw [isActive_iff.mpr ⟨v, hv, hva⟩] at hact
        cases hact
      rw [Attendance.since_of_not_active (v := roster.attendance a) hact, hnone]
      rcases (roster.attendance a).since c n with _ | i <;> rfl

/-- **The heights of a batch**, one after the other. -/
theorem trackAll (hc : roster.Consistent) : ∀ {found : List Evidence} {n : Nat} {tracker : Tracker},
    found.map (fun e => (e.height, e.signatures, (Except.ok e.active : Except Fault ActiveSet))) =
      (List.range' (c + n + 1) found.length).map
        (fun h => (h, roster.commit h, ActiveSet.ofValidators (roster.validators h))) →
    roster.Followed c n tracker → Indexing.Consensus.track tracker found = .ok tracker' →
    roster.Followed c (n + found.length) tracker'
  | [], n, tracker, _, hf, ht => by
    cases ht
    exact hf
  | e :: found, n, tracker, hmap, hf, ht => by
    rw [List.length_cons, List.range'_succ, List.map_cons, List.map_cons, List.cons.injEq, Prod.mk.injEq,
      Prod.mk.injEq] at hmap
    obtain ⟨⟨hheight, hsignatures, hset⟩, hrest⟩ := hmap
    unfold Indexing.Consensus.track at ht
    rcases hseen : tracker.addSet e.height e.active with why | seen <;>
      simp only [hseen, bind, Except.bind] at ht
    · cases ht
    rw [hheight] at hseen
    rw [hsignatures] at ht
    have := trackAll hc (n := n + 1) hrest (hf.step hc hset.symm hseen) ht
    rwa [List.length_cons, Nat.add_comm found.length, ← Nat.add_assoc]

/-- An entry of a tracker belongs to the owner that it names. -/
theorem owns (hf : roster.Followed c n tracker) {p : String × Interval} (hp : p ∈ tracker) :
    roster.Owns p.1 p.2.owner ∧ (roster.attendance p.2.owner).since c n = some p.2 := by
  have hentry : tracker.held? p.1 = some p.2 := by
    rw [Tracker.held?, (Keyed.get?_iff hf.nodup).mpr ⟨hp, rfl⟩, Option.map_some]
  obtain ⟨a, ha⟩ := hf.known p.1 (by simp [hentry])
  have hsince := (hf.entry p.1 a ha).symm.trans hentry
  have howner : p.2.owner = a := Attendance.owner_since hsince
  rw [howner]
  exact ⟨ha, hsince⟩

theorem nodup_rows (hc : roster.Consistent) (hf : roster.Followed c n tracker) :
    (tracker.rows.map Interval.owner).Nodup := by
  have hperm : tracker.rows.Perm (tracker.map (·.2)) := List.mergeSort_perm _ _
  rw [(hperm.map Interval.owner).nodup_iff, List.map_map]
  refine List.pairwise_map.mpr ((List.pairwise_map.mp hf.nodup).imp_of_mem fun {p q} hp hq hne howner => hne ?_)
  have hqowns := (hf.owns hq).1
  rw [← show p.2.owner = q.2.owner from howner] at hqowns
  exact Owns.key_eq hc (hf.owns hp).1 hqowns

/-- **The rows of a batch** hold the interval of each owner. -/
theorem get?_rows (hc : roster.Consistent) (hf : roster.Followed c n tracker) (a : String) :
    Keyed.get? Interval.owner a tracker.rows = (roster.attendance a).since c n := by
  have hmem : ∀ i, i ∈ tracker.rows ↔ ∃ p ∈ tracker, p.2 = i := fun i => by
    rw [Tracker.rows, List.mem_mergeSort, List.mem_map]
  ext i
  rw [Keyed.get?_iff (hf.nodup_rows hc), hmem]
  constructor
  · rintro ⟨⟨p, hp, rfl⟩, rfl⟩
    exact (hf.owns hp).2
  · intro hsince
    have howner : i.owner = a := Attendance.owner_since hsince
    obtain ⟨v, hv, hva⟩ := isActive_iff.mp (Attendance.last_since hsince).1.2
    have hentry := hf.entry (setKey v.address) a ⟨_, v, hv, rfl, hva⟩
    rw [hsince] at hentry
    obtain ⟨p, hp, hpi⟩ := Option.map_eq_some_iff.mp hentry
    exact ⟨⟨p, Keyed.mem_of_get? hp, hpi⟩, howner⟩

end Roster.Followed

end StakeTrail
