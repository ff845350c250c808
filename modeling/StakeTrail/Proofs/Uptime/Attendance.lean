import Mathlib
import StakeTrail.Uptime.Interval

/-!
# The active interval of one validator

An `Attendance` says at which heights a validator is active and how often it signs. `since c n` is the interval that
the heights `c + 1 … c + n` leave, found height by height: it goes on as long as the validator is active, and starts
afresh when it comes back.

* `since_add` puts two stretches of heights together: the later interval follows the earlier one when it starts right
  after it, and replaces it otherwise.
* `last_since` and `run_since` say what the interval is, whatever the heights were cut into.
-/

namespace StakeTrail.Uptime

/-- One validator: where it is active and how often it signs. -/
structure Attendance where
  owner : String
  active : Nat → Bool
  signed : Nat → Nat

/-- The interval of a validator that is active at a height. -/
def resumed (height : Nat) (owner : String) : Option Interval → Interval
  | none => ⟨owner, height, height, 0⟩
  | some i => if i.last + 1 = height then { i with last := height } else ⟨owner, height, height, 0⟩

/-- An interval with more votes. -/
def Interval.plus (i : Interval) (votes : Nat) : Interval := { i with votes := i.votes + votes }

/-- The interval that comes after a stored one. -/
def Interval.following (i : Interval) : Option Interval → Interval
  | none => i
  | some s => if s.last + 1 = i.first then ⟨i.owner, s.first, i.last, s.votes + i.votes⟩ else i

namespace Attendance

variable {v : Attendance} {c n : Nat} {i : Interval}

/-- **The interval that the heights `c + 1 … c + n` leave.** -/
def since (v : Attendance) (c : Nat) : Nat → Option Interval
  | 0 => none
  | n + 1 =>
    if v.active (c + n + 1) then
      some ((resumed (c + n + 1) v.owner (since v c n)).plus (v.signed (c + n + 1)))
    else since v c n

theorem since_of_active (h : v.active (c + n + 1) = true) :
    v.since c (n + 1) = some ((resumed (c + n + 1) v.owner (v.since c n)).plus (v.signed (c + n + 1))) := by
  rw [since, if_pos h]

theorem since_of_not_active (h : v.active (c + n + 1) = false) : v.since c (n + 1) = v.since c n := by
  rw [since, if_neg (by simp [h])]

theorem since_eq_none_iff : v.since c n = none ↔ ∀ h ∈ Finset.Ioc c (c + n), v.active h = false := by
  induction n with
  | zero => simp [since]
  | succ n ih =>
    cases hact : v.active (c + n + 1) with
    | true =>
      rw [since_of_active hact]
      simp only [reduceCtorEq, false_iff, not_forall]
      exact ⟨c + n + 1, Finset.mem_Ioc.mpr (by omega), by simp [hact]⟩
    | false =>
      rw [since_of_not_active hact, ih]
      constructor
      · intro hno h hh
        rw [Finset.mem_Ioc] at hh
        by_cases heq : h = c + n + 1
        · rw [heq, hact]
        · exact hno h (Finset.mem_Ioc.mpr (by omega))
      · intro hno h hh
        rw [Finset.mem_Ioc] at hh
        exact hno h (Finset.mem_Ioc.mpr (by omega))

theorem owner_since (h : v.since c n = some i) : i.owner = v.owner := by
  induction n generalizing i with
  | zero => cases h
  | succ n ih =>
    cases hact : v.active (c + n + 1) with
    | true =>
      rw [since_of_active hact] at h
      rcases hs : v.since c n with _ | j <;> rw [hs] at h <;> cases h
      · rfl
      · simp only [Interval.plus, resumed]
        split
        · exact ih (i := j) hs
        · rfl
    | false =>
      rw [since_of_not_active hact] at h
      exact ih h

/-- The last height is the last one at which the validator is active. -/
theorem last_since (h : v.since c n = some i) :
    IsGreatest {k | k ∈ Finset.Ioc c (c + n) ∧ v.active k = true} i.last := by
  induction n generalizing i with
  | zero => cases h
  | succ n ih =>
    cases hact : v.active (c + n + 1) with
    | true =>
      have hlast : i.last = c + n + 1 := by
        rw [since_of_active hact] at h
        cases h
        unfold resumed
        split
        · rfl
        · split <;> rfl
      rw [hlast]
      exact ⟨⟨Finset.mem_Ioc.mpr (by omega), hact⟩, fun k hk => (Finset.mem_Ioc.mp hk.1).2⟩
    | false =>
      rw [since_of_not_active hact] at h
      obtain ⟨⟨hmem, hlast⟩, hle⟩ := ih h
      rw [Finset.mem_Ioc] at hmem
      refine ⟨⟨Finset.mem_Ioc.mpr (by omega), hlast⟩, ?_⟩
      rintro k ⟨hk, hkact⟩
      rw [Finset.mem_Ioc] at hk
      by_cases heq : k = c + n + 1
      · rw [heq, hact] at hkact
        cases hkact
      · exact hle ⟨Finset.mem_Ioc.mpr (by omega), hkact⟩

/-- **The first height is the first of the unbroken run of active heights that ends at the last height**, and the votes
are those of this run. -/
theorem run_since (h : v.since c n = some i) :
    IsLeast {f | f ∈ Finset.Ioc c i.last ∧ ∀ k ∈ Finset.Icc f i.last, v.active k = true} i.first ∧
      i.votes = ∑ k ∈ Finset.Icc i.first i.last, v.signed k := by
  induction n generalizing i with
  | zero => cases h
  | succ n ih =>
    cases hact : v.active (c + n + 1) with
    | false =>
      rw [since_of_not_active hact] at h
      exact ih h
    | true =>
      rw [since_of_active hact] at h
      -- a fresh interval, right when the height before is not active
      have fresh : (n ≠ 0 → v.active (c + n) = false) →
          IsLeast {f | f ∈ Finset.Ioc c (c + n + 1) ∧ ∀ k ∈ Finset.Icc f (c + n + 1), v.active k = true}
            (c + n + 1) := by
        intro hgap
        refine ⟨⟨Finset.mem_Ioc.mpr (by omega), fun k hk => ?_⟩, fun f hf => ?_⟩
        · have : k = c + n + 1 := by
            rw [Finset.mem_Icc] at hk
            omega
          rw [this, hact]
        · obtain ⟨hmem, hrun⟩ := hf
          rw [Finset.mem_Ioc] at hmem
          by_contra hlt
          have hlt : f < c + n + 1 := by simpa using hlt
          have hprev := hrun (c + n) (Finset.mem_Icc.mpr (by omega))
          rw [hgap (by omega)] at hprev
          cases hprev
      rcases hs : v.since c n with _ | j <;> rw [hs] at h <;> cases h
      · refine ⟨fresh fun hn => since_eq_none_iff.mp hs (c + n) (Finset.mem_Ioc.mpr (by omega)), ?_⟩
        simp [Interval.plus, resumed]
      · obtain ⟨⟨⟨hmem, hrun⟩, hleast⟩, hvotes⟩ := ih hs
        obtain ⟨⟨hlmem, hlact⟩, hlast⟩ := last_since hs
        rw [Finset.mem_Ioc] at hmem hlmem
        by_cases hnext : j.last + 1 = c + n + 1
        · simp only [resumed, if_pos hnext, Interval.plus]
          refine ⟨⟨⟨Finset.mem_Ioc.mpr (by omega), fun k hk => ?_⟩, fun f hf => ?_⟩, ?_⟩
          · rw [Finset.mem_Icc] at hk
            by_cases heq : k = c + n + 1
            · rw [heq, hact]
            · exact hrun k (Finset.mem_Icc.mpr (by omega))
          · obtain ⟨hfmem, hfrun⟩ := hf
            rw [Finset.mem_Ioc] at hfmem
            by_cases heq : f = c + n + 1
            · omega
            · refine hleast ⟨Finset.mem_Ioc.mpr (by omega), fun k hk => ?_⟩
              rw [Finset.mem_Icc] at hk
              exact hfrun k (Finset.mem_Icc.mpr (by omega))
          · rw [hvotes, ← hnext, Finset.sum_Icc_succ_top (by omega)]
        · simp only [resumed, if_neg hnext, Interval.plus]
          refine ⟨fresh fun hn => ?_, by simp⟩
          by_contra hprev
          have hle : c + n ≤ j.last := hlast ⟨Finset.mem_Ioc.mpr (by omega), by simpa using hprev⟩
          omega

/-! ## Two stretches of heights -/

/-- An interval that starts afresh after a stored one goes on with it when it starts right after it. -/
theorem plus_resumed {height k : Nat} {stored : Option Interval} {owner : String}
    (ho : ∀ s, stored = some s → s.owner = owner) :
    (resumed height owner stored).plus k = ((resumed height owner none).plus k).following stored := by
  rcases stored with _ | s
  · rfl
  · have := ho s rfl
    subst this
    simp only [resumed, Interval.plus, Interval.following, Nat.zero_add]
    split <;> simp

/-- It does not matter whether an interval goes on before or after it is put behind a stored one. -/
theorem plus_resumed_following {height k : Nat} {stored : Option Interval} {owner : String} (j : Interval)
    (hs : ∀ s, stored = some s → s.last + 1 < height) :
    (resumed height owner (some (j.following stored))).plus k =
      ((resumed height owner (some j)).plus k).following stored := by
  rcases stored with _ | s
  · rfl
  · have hlt := hs s rfl
    have hne : s.last + 1 ≠ height := by omega
    by_cases hj : s.last + 1 = j.first
    · have hfirst : j.first ≠ height := hj ▸ hne
      by_cases hnext : j.last + 1 = height <;>
        simp [resumed, Interval.plus, Interval.following, hj, hnext, hfirst, Nat.add_assoc]
    · by_cases hnext : j.last + 1 = height <;>
        simp [resumed, Interval.plus, Interval.following, hj, hnext, hne]

/-- **Two stretches of heights** together leave the later interval, after the earlier one. -/
theorem since_add (v : Attendance) (c m n : Nat) :
    v.since c (m + n) =
      match v.since (c + m) n with
      | none => v.since c m
      | some i => some (i.following (v.since c m)) := by
  induction n with
  | zero => rfl
  | succ n ih =>
    have hadd : c + (m + n) + 1 = c + m + n + 1 := by omega
    rw [← Nat.add_assoc m n 1]
    cases hact : v.active (c + m + n + 1) with
    | false => rw [since_of_not_active (hadd ▸ hact), since_of_not_active hact, ih]
    | true =>
      rw [since_of_active (hadd ▸ hact), since_of_active hact, ih, hadd]
      rcases hlater : v.since (c + m) n with _ | j
      · exact congrArg some (plus_resumed fun s hs => owner_since hs)
      · refine congrArg some (plus_resumed_following j fun s hs => ?_)
        have h₁ := Finset.mem_Ioc.mp (last_since hs).1.1
        have h₂ := Finset.mem_Ioc.mp (last_since hlater).1.1
        omega

end Attendance

end StakeTrail.Uptime
