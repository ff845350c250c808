import Mathlib
import StakeTrail.Reward

/-!
# Adding up what an address is owed

A `Share` is an amount and a height. Shares are `join`ed by adding the amounts and keeping the greater height, and the
`tally` of an address joins the shares of its entries in a list: withdrawals with their heights, or pending deltas.

* A pending list that holds each address once has the tally of the withdrawals that were added to it
  (`share?_addAll`, `tally_drained`), in whatever order they are drained.
* `tally_eq_none_iff`, `tally_amount` and `tally_height` say what a tally is: nothing, or the exact sum and the
  greatest height.
-/

namespace StakeTrail.Reward

variable {α : Type}

/-- An amount and the height up to which it is known. -/
abbrev Share := Nat × Nat

/-- Two shares of one address. -/
def join : Option Share → Option Share → Option Share
  | none, y => y
  | some x, none => some x
  | some (n, h), some (m, k) => some (n + m, max h k)

@[simp] theorem join_none (x : Option Share) : join x none = x := by cases x <;> rfl

@[simp] theorem none_join (x : Option Share) : join none x = x := rfl

theorem join_assoc (x y z : Option Share) : join (join x y) z = join x (join y z) := by
  rcases x with _ | ⟨n, h⟩ <;> rcases y with _ | ⟨m, k⟩ <;> rcases z with _ | ⟨l, i⟩ <;> try rfl
  simp only [join, Nat.add_assoc, Nat.max_assoc]

/-- **The tally of an address**: the shares of its entries, joined. -/
def tally (owner : α → String) (share : α → Share) (a : String) : List α → Option Share
  | [] => none
  | x :: rest => join (if owner x = a then some (share x) else none) (tally owner share a rest)

section Tally

variable {owner : α → String} {share : α → Share} {a : String}

theorem tally_append (l m : List α) :
    tally owner share a (l ++ m) = join (tally owner share a l) (tally owner share a m) := by
  induction l with
  | nil => rfl
  | cons x l ih => rw [List.cons_append, tally, tally, ih, join_assoc]

theorem tally_map {β : Type} (f : β → α) (l : List β) :
    tally owner share a (l.map f) = tally (fun x => owner (f x)) (fun x => share (f x)) a l := by
  induction l with
  | nil => rfl
  | cons x l ih => rw [List.map_cons, tally, tally, ih]

/-- Of a list that holds each address once, the tally is the one share. -/
theorem tally_of_nodup {l : List α} (h : (l.map owner).Nodup) :
    tally owner share a l = (Keyed.get? owner a l).map share := by
  induction l with
  | nil => rfl
  | cons x l ih =>
    obtain ⟨hx, hl⟩ := List.nodup_cons.mp (List.map_cons ▸ h)
    rw [tally, ih hl]
    by_cases ha : owner x = a
    · have hnone : Keyed.get? owner a l = none :=
        Keyed.get?_eq_none.mpr fun y hy hya => hx (List.mem_map.mpr ⟨y, hy, hya.trans ha.symm⟩)
      simp [Keyed.get?, ha, hnone]
    · simp [Keyed.get?, ha]

theorem tally_eq_none_iff {l : List α} : tally owner share a l = none ↔ ∀ x ∈ l, owner x ≠ a := by
  induction l with
  | nil => simp [tally]
  | cons x l ih =>
    by_cases ha : owner x = a
    · rcases ht : tally owner share a l with _ | ⟨n, h⟩ <;> simp [tally, ha, ht, join]
    · simp [tally, ha, ih]

/-- The amount of a tally is the exact sum. -/
theorem tally_amount (l : List α) :
    ((tally owner share a l).map Prod.fst).getD 0 = ((l.filter (owner · = a)).map fun x => (share x).1).sum := by
  induction l with
  | nil => rfl
  | cons x l ih =>
    by_cases ha : owner x = a
    · rw [tally, if_pos ha, List.filter_cons_of_pos (by simpa using ha), List.map_cons, List.sum_cons, ← ih]
      rcases tally owner share a l with _ | ⟨n, h⟩ <;> rfl
    · rw [tally, if_neg ha, List.filter_cons_of_neg (by simpa using ha), none_join, ih]

/-- The height of a tally is the greatest. -/
theorem tally_height {l : List α} {n h : Nat} (ht : tally owner share a l = some (n, h)) :
    (∃ x ∈ l, owner x = a ∧ (share x).2 = h) ∧ ∀ x ∈ l, owner x = a → (share x).2 ≤ h := by
  induction l generalizing n h with
  | nil => cases ht
  | cons x l ih =>
    rw [tally] at ht
    by_cases ha : owner x = a
    · rw [if_pos ha] at ht
      rcases hl : tally owner share a l with _ | ⟨m, k⟩ <;> rw [hl] at ht
      · have hno := tally_eq_none_iff.mp hl
        have hx : (share x).2 = h := congrArg Prod.snd (Option.some.inj ht)
        refine ⟨⟨x, List.mem_cons_self, ha, hx⟩, fun y hy hya => ?_⟩
        rcases List.mem_cons.mp hy with rfl | hy
        · exact Nat.le_of_eq hx
        · exact absurd hya (hno y hy)
      · obtain ⟨⟨y, hy, hya, hyk⟩, hle⟩ := ih hl
        have hmax : max (share x).2 k = h := congrArg Prod.snd (Option.some.inj ht)
        refine ⟨?_, fun z hz hza => ?_⟩
        · by_cases hxk : (share x).2 ≤ k
          · exact ⟨y, List.mem_cons_of_mem _ hy, hya, by omega⟩
          · exact ⟨x, List.mem_cons_self, ha, by omega⟩
        · rcases List.mem_cons.mp hz with rfl | hz
          · omega
          · have := hle z hz hza
            omega
    · rw [if_neg ha, none_join] at ht
      obtain ⟨⟨y, hy, hya, hyh⟩, hle⟩ := ih ht
      refine ⟨⟨y, List.mem_cons_of_mem _ hy, hya, hyh⟩, fun z hz hza => ?_⟩
      rcases List.mem_cons.mp hz with rfl | hz
      · exact absurd hza ha
      · exact hle z hz hza

end Tally

/-! ## Pending withdrawals -/

/-- The share of a delta. -/
def Delta.share (d : Delta) : Share := (d.amount, d.height)

/-- What is pending for an address. -/
def share? (a : String) (pending : Accumulator) : Option Share := (Keyed.get? Delta.address a pending).map Delta.share

/-- The address that a withdrawal credits, in normal form. -/
def payee (w : Withdrawal) : String := Address.normalForm w.address

namespace Accumulator

/-- A withdrawal is written over what is pending for its address. -/
theorem add_eq (pending : Accumulator) (h : Nat) (w : Withdrawal) :
    ∃ d, d.address = payee w ∧ join (share? (payee w) pending) (some (w.amount, h)) = some d.share ∧
      pending.add h w = Keyed.put Delta.address d pending := by
  unfold add share? payee
  rcases hg : Keyed.get? Delta.address (Address.normalForm w.address) pending with _ | d
  · refine ⟨⟨Address.normalForm w.address, w.amount, h⟩, rfl, rfl, ?_⟩
    rw [Keyed.put_of_none hg]
    simp only [hg]
  · exact ⟨⟨Address.normalForm w.address, d.amount + w.amount, max d.height h⟩, rfl, rfl, by simp only [hg]⟩

theorem nodup_add {pending : Accumulator} (hn : (pending.map Delta.address).Nodup) (h : Nat) (w : Withdrawal) :
    ((pending.add h w).map Delta.address).Nodup := by
  obtain ⟨d, -, -, heq⟩ := pending.add_eq h w
  rw [heq]
  exact Keyed.nodup_put d hn

theorem share?_add (a : String) (pending : Accumulator) (h : Nat) (w : Withdrawal) :
    share? a (pending.add h w) =
      join (share? a pending) (if payee w = a then some (w.amount, h) else none) := by
  obtain ⟨d, hd, hjoin, heq⟩ := pending.add_eq h w
  rw [share?, heq, Keyed.get?_put, hd]
  by_cases ha : payee w = a
  · rw [if_pos ha, if_pos ha, ← ha, hjoin]
    rfl
  · rw [if_neg ha, if_neg ha, join_none]
    rfl

theorem nodup_addAll {pending : Accumulator} (hn : (pending.map Delta.address).Nodup) (h : Nat)
    (ws : List Withdrawal) : ((pending.addAll h ws).map Delta.address).Nodup := by
  unfold addAll
  induction ws generalizing pending with
  | nil => exact hn
  | cons w ws ih => exact ih (nodup_add hn h w)

/-- **The withdrawals of a block** join what is pending. -/
theorem share?_addAll (a : String) (pending : Accumulator) (h : Nat) (ws : List Withdrawal) :
    share? a (pending.addAll h ws) =
      join (share? a pending) (tally payee (fun w => (w.amount, h)) a ws) := by
  unfold addAll
  induction ws generalizing pending with
  | nil => simp [tally]
  | cons w ws ih => rw [List.foldl_cons, ih, share?_add, join_assoc, tally]

/-- **What is drained has the tally of what was pending.** -/
theorem tally_drained {pending : Accumulator} (hn : (pending.map Delta.address).Nodup) (a : String) :
    tally Delta.address Delta.share a pending.drained = share? a pending := by
  have hp : pending.drained.Perm pending := List.mergeSort_perm _ _
  have hn' : (pending.drained.map Delta.address).Nodup := (hp.map Delta.address).nodup_iff.mpr hn
  rw [tally_of_nodup hn', Keyed.get?_perm hn' hp, share?]

end Accumulator

end StakeTrail.Reward
