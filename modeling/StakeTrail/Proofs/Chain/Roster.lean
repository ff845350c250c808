import StakeTrail.Indexing.Consensus
import StakeTrail.Proofs.Chain.Honest

/-!
# Feeds that list the validators of a chain

A `Roster` has the active set and the commit of each height. A feed lists it when its commits are those of the roster
and its pages are cut out of the active sets; it may fail at any time, and two feeds of one roster may fail at different
heights. A walk that comes to its end has then met the whole set (`allValidators_eq`), so the evidence of a height is
determined by it (`evidence_eq`).
-/

namespace StakeTrail

open Uptime Indexing.Consensus

/-- The active set and the commit of each height. -/
structure Roster where
  validators : Nat → List Validator
  commit : Nat → List Signature

/-- The page with a number, counted from one. -/
def Roster.page (roster : Roster) (height page size : Nat) : ActivePage :=
  ⟨((roster.validators height).drop ((page - 1) * size)).take size, (roster.validators height).length⟩

/-- A page follows on what the pages before it have. -/
theorem Roster.take_page (roster : Roster) (height size : Nat) {page : Nat} (hpage : 1 ≤ page) :
    (roster.validators height).take ((page - 1) * size) ++ (roster.page height page size).validators =
      (roster.validators height).take (page * size) := by
  obtain ⟨k, rfl⟩ := Nat.exists_eq_add_of_le' hpage
  rw [Roster.page, ← List.take_add, Nat.add_sub_cancel, Nat.succ_mul]

/-- A page is empty, or reaches the size of the set, just if nothing comes after it. -/
theorem Roster.isLast_iff (roster : Roster) (height page : Nat) {size : Nat} (hsize : 0 < size) :
    ((roster.page height page size).validators.isEmpty ∨ page * size ≥ (roster.page height page size).total) ↔
      (roster.validators height).length ≤ page * size := by
  refine ⟨?_, .inr⟩
  rintro (hempty | hfull)
  · have htake : ((roster.validators height).drop ((page - 1) * size)).take size = [] := List.isEmpty_iff.mp hempty
    have hdrop := (List.take_eq_nil_iff.mp htake).resolve_left (Nat.ne_of_gt hsize)
    exact Nat.le_trans (List.drop_eq_nil_iff.mp hdrop) (Nat.mul_le_mul_right _ (Nat.sub_le _ _))
  · exact hfull

/-- Whatever the feed answers is what the roster has. -/
structure ConsensusFeed.Lists (feed : ConsensusFeed) (roster : Roster) : Prop where
  commit : ∀ h l, feed.commit h = .ok l → l = roster.commit h
  page : ∀ h page size answer, feed.validators h page size = .ok answer → answer = roster.page h page size

namespace Feed

variable {pages : Nat → Except Fault ActivePage} {roster : Roster} {h : Nat}

/-- **A walk that comes to its end has met the whole set.** -/
theorem walk_eq (hp : ∀ page answer, pages page = .ok answer → answer = roster.page h page pageSize) :
    ∀ {left page : Nat} {acc all : List Validator}, acc = (roster.validators h).take ((page - 1) * pageSize) →
      1 ≤ page → walk pages left page acc = .ok all → all = roster.validators h
  | 0, _, _, _, _, _, hw => by cases hw
  | left + 1, page, acc, all, hacc, hpage, hw => by
    unfold walk at hw
    rcases ha : pages page with e | answer <;> rw [ha] at hw
    · cases hw
    have hanswer := hp page answer ha
    subst hanswer hacc
    simp only [roster.take_page h pageSize hpage, roster.isLast_iff h page (by decide : 0 < pageSize)] at hw
    split at hw
    · rename_i hend
      cases hw
      exact List.take_of_length_le hend
    · exact walk_eq hp (by rw [Nat.add_sub_cancel]) (by omega) hw

theorem allValidators_eq {feed : ConsensusFeed} (hf : feed.Lists roster) {all : List Validator}
    (ha : allValidators feed h = .ok all) : all = roster.validators h :=
  walk_eq (hf.page h · pageSize) (by simp) (Nat.le_refl 1) ha

end Feed

/-- **The evidence of a height** is determined by the roster. -/
theorem evidence_eq {feed : ConsensusFeed} {roster : Roster} (hf : feed.Lists roster) {h : Nat} {e : Evidence}
    (he : evidence feed h = .ok e) :
    e.height = h ∧ e.signatures = roster.commit h ∧ ActiveSet.ofValidators (roster.validators h) = .ok e.active := by
  unfold evidence at he
  rcases hv : Feed.allValidators feed h with why | validators <;> rw [hv] at he
  · cases he
  rcases hc : feed.commit h with why | signatures
  · rw [hc] at he
    cases he
  rcases ha : ActiveSet.ofValidators validators with why | active
  · simp only [hc, ha, bind, Except.bind] at he
    cases he
  simp only [hc, ha, bind, Except.bind] at he
  cases he
  rw [Feed.allValidators_eq hf hv] at ha
  exact ⟨rfl, hf.commit h signatures hc, ha⟩

/-- The evidence of a range. -/
theorem gather_evidence {feed : ConsensusFeed} {roster : Roster} (hf : feed.Lists roster) {first last : Nat}
    {found : List Evidence} (hfound : Feed.gather first last (evidence feed) = .ok found) :
    found.map (fun e => (e.height, e.signatures, (Except.ok e.active : Except Fault ActiveSet))) =
      (List.range' first (last + 1 - first)).map fun h =>
        (h, roster.commit h, ActiveSet.ofValidators (roster.validators h)) := by
  refine Feed.gather_map (fun h e he => ?_) hfound
  obtain ⟨h₁, h₂, h₃⟩ := evidence_eq hf he
  rw [h₁, h₂, h₃]

end StakeTrail
