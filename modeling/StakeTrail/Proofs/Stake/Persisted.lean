import Mathlib
import StakeTrail.Proofs.Stake.Changes

/-!
# What stored events change

What a stored change is worth, and what the changes of a height add up to: `dueOf` is their sum, or nothing where there
are none. It does not depend on their order (`dueOf_perm`).

The deltas that are collected from stored changes hold one entry for each height that has any, in ascending order, with
what is due there (`Collected`, `ofChanges_eq`); the order in which the changes come does not matter.
-/

namespace StakeTrail.Stake

open StakeTrail.Action

/-- What a stored change adds to the history. -/
def Change.signed? (c : Change) : Option Int :=
  match c.kind with
  | .stake => some (worth c.amount)
  | .unstake => some (-worth c.amount)
  | _ => none

/-- What some changes add up to; nothing where there are none. -/
def dueOf : List Int → Option Int
  | [] => none
  | d :: ds => some (d :: ds).sum

theorem dueOf_perm {ds es : List Int} (h : ds.Perm es) : dueOf ds = dueOf es := by
  rcases ds with _ | ⟨d, ds⟩ <;> rcases es with _ | ⟨e, es⟩
  · rfl
  · exact absurd h.length_eq (by simp)
  · exact absurd h.length_eq (by simp)
  · rw [dueOf, dueOf, h.sum_eq]

theorem dueOf_concat (ds : List Int) (d : Int) : dueOf (ds ++ [d]) = some ((dueOf ds).getD 0 + d) := by
  rcases ds with _ | ⟨e, es⟩ <;> simp [dueOf, add_assoc]

theorem dueOf_eq_none {ds : List Int} : dueOf ds = none ↔ ds = [] := by
  rcases ds with _ | ⟨d, ds⟩ <;> simp [dueOf]

theorem getD_dueOf (ds : List Int) : (dueOf ds).getD 0 = ds.sum := by
  rcases ds with _ | ⟨d, ds⟩ <;> rfl

/-- What some changes add up to at a height. -/
def dueAt (changes : List Change) (h : Nat) : Option Int :=
  dueOf (changes.filterMap fun c => if c.block = h then c.signed? else none)

/-! ## Entries in ascending order -/

/-- The heights of the entries ascend. -/
def Ascends (deltas : Deltas) : Prop := deltas.Pairwise fun p q => p.1 < q.1

theorem Ascends.nodup {deltas : Deltas} (h : Ascends deltas) : (deltas.map Prod.fst).Nodup :=
  List.pairwise_map.mpr (h.imp Nat.ne_of_lt)

/-- **One more change** is added to the entry of its height, or becomes it. -/
theorem plus_get? {h : Nat} {d : Int} : ∀ {deltas next : Deltas}, Ascends deltas →
    Deltas.plus h d deltas = .ok next →
      Ascends next ∧ ∀ k, Keyed.get? Prod.fst k next =
        if k = h then some (h, ((Keyed.get? Prod.fst h deltas).map (·.2)).getD 0 + d)
        else Keyed.get? Prod.fst k deltas
  | [], next, _, hp => by
    cases hp
    refine ⟨List.pairwise_singleton _ _, fun k => ?_⟩
    by_cases hk : k = h
    · subst hk
      simp [Keyed.get?]
    · simp [Keyed.get?, hk, Ne.symm hk]
  | (l, x) :: rest, next, hs, hp => by
    obtain ⟨hl, hrest⟩ := List.pairwise_cons.mp hs
    rw [Deltas.plus] at hp
    split at hp
    · rename_i hlt
      cases hp
      have hnone : Keyed.get? Prod.fst h ((l, x) :: rest) = none := by
        refine Keyed.get?_eq_none.mpr fun p hp => ?_
        rcases List.mem_cons.mp hp with rfl | hp
        · exact Nat.ne_of_gt hlt
        · exact Nat.ne_of_gt (hlt.trans (hl p hp))
      refine ⟨List.pairwise_cons.mpr ⟨fun p hp => ?_, hs⟩, fun k => ?_⟩
      · rcases List.mem_cons.mp hp with rfl | hp
        · exact hlt
        · exact hlt.trans (hl p hp)
      · rw [hnone]
        by_cases hk : k = h
        · subst hk
          simp [Keyed.get?]
        · rw [if_neg hk, Keyed.get?, if_neg (Ne.symm hk)]
    · split at hp
      · rename_i heq
        subst heq
        split at hp <;> cases hp
        rename_i sum hsum
        refine ⟨List.pairwise_cons.mpr ⟨hl, hrest⟩, fun k => ?_⟩
        by_cases hk : k = h
        · subst hk
          simp [Keyed.get?, add?_eq hsum]
        · simp [Keyed.get?, hk, Ne.symm hk]
      · rename_i hge hne
        rcases hr : Deltas.plus h d rest with e | later <;> rw [hr] at hp <;> cases hp
        obtain ⟨hlater, hget⟩ := plus_get? hrest hr
        refine ⟨List.pairwise_cons.mpr ⟨fun p hp => ?_, hlater⟩, fun k => ?_⟩
        · have hfound := (Keyed.get?_iff hlater.nodup).mpr ⟨hp, rfl⟩
          rw [hget] at hfound
          split at hfound
          · change l < p.1
            omega
          · exact hl p (Keyed.mem_of_get? hfound)
        · have hlh : l ≠ h := by omega
          rw [Keyed.get?, hget]
          by_cases hk : l = k
          · subst hk
            simp [Keyed.get?, hlh]
          · simp [Keyed.get?, hk, hlh]

/-! ## Collecting changes -/

/-- **What was collected from some changes**: what is due at each height, and times that came with them;
every amount is a numeral. -/
structure Collected (changes : List Change) (s : Deltas × Times) : Prop where
  ascends : Ascends s.1
  due : ∀ h, Keyed.get? Prod.fst h s.1 = (dueAt changes h).map fun d => (h, d)
  times : ∀ p ∈ s.2, ∃ c ∈ changes, c.block = p.1 ∧ c.time = some p.2
  readable : ∀ c ∈ changes, ∃ n, readAmount c.amount = .ok n

theorem dueAt_concat (changes : List Change) (c : Change) (h : Nat) :
    dueAt (changes ++ [c]) h =
      match c.signed? with
      | some d => if c.block = h then some ((dueAt changes h).getD 0 + d) else dueAt changes h
      | none => dueAt changes h := by
  unfold dueAt
  by_cases hb : c.block = h
  · rcases hs : c.signed? with _ | d
    · simp [List.filterMap_append, hb, hs]
    · simp [List.filterMap_append, hb, hs, dueOf_concat]
  · rcases c.signed? with _ | d <;> simp [List.filterMap_append, hb]

/-- A change that does not count. -/
theorem Collected.skip {changes : List Change} {s : Deltas × Times} (hs : Collected changes s) {c : Change}
    (hn : ∃ n, readAmount c.amount = .ok n) (hc : c.signed? = none) : Collected (changes ++ [c]) s where
  ascends := hs.ascends
  due h := by rw [dueAt_concat, hc, hs.due]
  times p hp := by
    obtain ⟨d, hd, h⟩ := hs.times p hp
    exact ⟨d, List.mem_append_left _ hd, h⟩
  readable := List.forall_mem_append.mpr ⟨hs.readable, by simpa using hn⟩

/-- A change that counts. -/
theorem Collected.add {changes : List Change} {s : Deltas × Times} (hs : Collected changes s) {c : Change}
    {d time : Int} {next : Deltas} (hn : ∃ n, readAmount c.amount = .ok n) (hc : c.signed? = some d)
    (ht : c.time = some time) (hp : Deltas.plus c.block d s.1 = .ok next) :
    Collected (changes ++ [c]) (next, Keyed.put Prod.fst (c.block, time) s.2) := by
  obtain ⟨hnext, hget⟩ := plus_get? hs.ascends hp
  refine ⟨hnext, fun h => ?_, fun p hp => ?_, List.forall_mem_append.mpr ⟨hs.readable, by simpa using hn⟩⟩
  · rw [hget, dueAt_concat, hc, hs.due, hs.due]
    by_cases hh : h = c.block
    · subst hh
      rcases dueAt changes c.block with _ | x <;> simp
    · simp [hh, Ne.symm hh]
  · rcases Keyed.mem_put hp with rfl | hp
    · exact ⟨c, by simp, rfl, ht⟩
    · obtain ⟨e, he, h⟩ := hs.times p hp
      exact ⟨e, List.mem_append_left _ he, h⟩

/-- Adds what a stored change is worth, with the time of its block. -/
def addWorth (c : Change) (d : Int) : Action (Deltas × Times) Unit :=
  match c.time with
  | none => fail (.missingBlockTime c.block)
  | some time => do
    within (·.1) (fun d s => (d, s.2)) (Deltas.add c.block d)
    update fun s => (s.1, Keyed.put Prod.fst (c.block, time) s.2)

theorem addChange_eq (c : Change) : addChange c = (do
    let n ← ofExcept (readAmount c.amount)
    match c.kind with
    | .stake => addWorth c n
    | .unstake => do
      let d ← ofExcept (negated n)
      addWorth c d
    | _ => pure ()) := rfl

/-- **One change more.** -/
theorem addChange_ends {changes : List Change} (c : Change) :
    Ends (Collected changes) (addChange c) (fun _ => Collected (changes ++ [c])) fun _ => True := by
  refine (Ends.ofExcept.fault fun _ _ => trivial).bind fun n => Ends.assuming fun hn => ?_
  have hworth : worth c.amount = n := by rw [worth, hn]; rfl
  have happly : ∀ d, c.signed? = some d →
      Ends (Collected changes) (addWorth c d) (fun _ => Collected (changes ++ [c])) fun _ => True := by
    intro d hd s hs
    unfold addWorth
    rcases ht : c.time with _ | time
    · exact trivial
    · simp only [bind_apply, within, Deltas.add]
      rcases hp : Deltas.plus c.block d s.1 with e | next
      · exact trivial
      · exact hs.add ⟨n, hn⟩ hd ht hp
  have hskip : c.signed? = none → Ends (Collected changes) (pure () : Action (Deltas × Times) Unit)
      (fun _ => Collected (changes ++ [c])) fun _ => True :=
    fun hno => Ends.pure fun s hs => hs.skip ⟨n, hn⟩ hno
  rcases hk : c.kind <;> try exact hskip (by simp [Change.signed?, hk])
  case stake => exact happly n (by simp [Change.signed?, hk, hworth])
  case unstake =>
    refine (Ends.ofExcept.fault fun _ _ => trivial).bind fun d => Ends.assuming fun hd => ?_
    refine happly d ?_
    unfold negated at hd
    split at hd <;> cases hd
    simp [Change.signed?, hk, hworth]

/-- **What is collected from stored changes.** -/
theorem ofChanges_eq {changes : List Change} {deltas : Deltas} {times : Times}
    (h : Deltas.ofChanges changes = .ok (deltas, times)) : Collected changes (deltas, times) := by
  have hends : Ends (Collected []) (each addChange changes) (fun _ => Collected changes) fun _ => True :=
    Ends.each (I := Collected) (fun done c _ => addChange_ends c) []
  have hempty : Collected [] ([], []) := ⟨.nil, fun _ => rfl, by simp, by simp⟩
  unfold Deltas.ofChanges at h
  rcases ha : each addChange changes ([], []) with ⟨why | ⟨⟩, s⟩ <;> rw [ha] at h <;> cases h
  exact hends.of_ok hempty ha

end StakeTrail.Stake
