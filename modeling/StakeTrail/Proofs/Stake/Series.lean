import Mathlib
import StakeTrail.Proofs.Chain.Honest
import StakeTrail.Proofs.Stake.Changes

/-!
# The series of a chain

What the table of totals holds when the heights up to some height are in it: `ConsensusChain.series` writes one point
after the other, height by height, and a height without a change writes nothing.

* Applying the deltas of further heights to the total continues the series (`applyOnto_series`), whatever points share
  a second.
* `series_row` says which rows there are: one a second, with the total after the last height of that second.
* `leading?_series` is the row with the latest time, for chains with `Steady` times.
-/

namespace StakeTrail

open Stake Store

namespace ConsensusChain

variable (chain : ConsensusChain) (genesis : Genesis) (base : Int)

/-- What a height adds to the total stake. -/
def net (h : Nat) : Int := netOf (chain.events h)

/-- Whether a height has a change. -/
def Carries (h : Nat) : Prop := ∃ e ∈ chain.events h, carries e = true

instance (h : Nat) : Decidable (chain.Carries h) := inferInstanceAs (Decidable (∃ e ∈ chain.events h, _))

/-- The total after a height. -/
def totalAt : Nat → Int
  | 0 => base
  | h + 1 => totalAt h + chain.net (h + 1)

/-- The points of the heights up to some height. -/
def series : Nat → List Point
  | 0 => [genesis.point]
  | h + 1 =>
    if chain.Carries (h + 1) then
      Keyed.put Point.time ⟨chain.time (h + 1), chain.totalAt base (h + 1)⟩ (series h)
    else series h

/-- The point of the last height with a change. -/
def lastPoint : Nat → Point
  | 0 => genesis.point
  | h + 1 =>
    if chain.Carries (h + 1) then ⟨chain.time (h + 1), chain.totalAt base (h + 1)⟩ else lastPoint h

/-- Block times never decrease and are never before that of the first point. -/
structure Steady : Prop where
  start : ∀ h, 1 ≤ h → genesis.time ≤ chain.time h
  mono : ∀ h k, 1 ≤ h → h ≤ k → chain.time h ≤ chain.time k

variable {chain genesis base}

theorem totalAt_eq (C : Nat) : chain.totalAt base C = base + ∑ h ∈ Finset.Icc 1 C, chain.net h := by
  induction C with
  | zero => simp [totalAt]
  | succ C ih => rw [totalAt, ih, Finset.sum_Icc_succ_top (by omega), add_assoc]

theorem series_succ (C : Nat) :
    chain.series genesis base (C + 1) =
      if chain.Carries (C + 1) then
        Keyed.put Point.time ⟨chain.time (C + 1), chain.totalAt base (C + 1)⟩ (chain.series genesis base C)
      else chain.series genesis base C := rfl

theorem any_carries {h : Nat} : (chain.events h).any Stake.carries = true ↔ chain.Carries h := List.any_eq_true

theorem net_of_not_carries {h : Nat} (hc : ¬ chain.Carries h) : chain.net h = 0 :=
  netOf_of_not_carries (Bool.eq_false_iff.mpr fun ha => hc (any_carries.mp ha))

/-! ## Continuing the series -/

theorem putAll_pushPoint (p : Point) (points table : List Point) :
    Keyed.putAll Point.time (Ledger.pushPoint p points) table =
      Keyed.put Point.time p (Keyed.putAll Point.time points table) := by
  unfold Ledger.pushPoint
  rcases List.eq_nil_or_concat' points with rfl | ⟨front, last, rfl⟩
  · rfl
  · rw [List.getLast?_concat]
    by_cases h : last.time = p.time
    · -- the last two points share a second, so the later one is written over the earlier one
      simp only [if_pos h, List.dropLast_concat]
      rw [Keyed.putAll_concat, Keyed.putAll_concat, Keyed.put_put h]
    · simp only [if_neg h]
      rw [Keyed.putAll_concat]

/-- A step of the ledger, with times that are those of the chain. -/
theorem step_eq {times : Times} (ht : ∀ p ∈ times, p.2 = chain.time p.1) {ledger next : Ledger} {h : Nat}
    {delta time : Int} (hs : ledger.step times h delta = .ok (time, next)) :
    time = chain.time h ∧ next.total = ledger.total + delta := by
  unfold Ledger.step at hs
  rcases hg : Keyed.get? Prod.fst h times with _ | ⟨k, t⟩ <;> rw [hg] at hs
  · cases hs
  · rcases hsum : Word.add? ledger.total delta with _ | total <;> simp only [hsum] at hs
    · cases hs
    · cases hs
      have hk : k = h := Keyed.key_of_get? hg
      exact ⟨hk ▸ ht _ (Keyed.mem_of_get? hg), add?_eq hsum⟩

/-- **The deltas of further heights continue the series.** -/
theorem applyOnto_series {times : Times} (ht : ∀ p ∈ times, p.2 = chain.time p.1) {table : List Point} :
    ∀ {n a : Nat} {points points' : List Point} {ledger ledger' : Ledger},
    ledger.total = chain.totalAt base a → Keyed.putAll Point.time points table = chain.series genesis base a →
    Ledger.applyOnto times points ledger (entries (a + 1) ((List.range' (a + 1) n).map chain.events)) =
      .ok (ledger', points') →
    ledger'.total = chain.totalAt base (a + n) ∧
      Keyed.putAll Point.time points' table = chain.series genesis base (a + n)
  | 0, a, points, points', ledger, ledger', hl, hp, h => by
    cases h
    exact ⟨hl, hp⟩
  | n + 1, a, points, points', ledger, ledger', hl, hp, h => by
    rw [List.range'_succ, List.map_cons, entries, entry] at h
    have hn : a + (n + 1) = a + 1 + n := by omega
    rw [hn]
    by_cases hc : chain.Carries (a + 1)
    · rw [if_pos (any_carries.mpr hc), List.singleton_append, Ledger.applyOnto] at h
      rcases hs : ledger.step times (a + 1) (netOf (chain.events (a + 1))) with e | ⟨time, next⟩ <;>
        simp only [hs] at h
      · cases h
      · obtain ⟨rfl, hnext⟩ := step_eq ht hs
        have htotal : next.total = chain.totalAt base (a + 1) := by rw [hnext, hl, totalAt, net]
        refine applyOnto_series ht htotal ?_ h
        rw [putAll_pushPoint, hp, htotal, series_succ, if_pos hc]
    · rw [if_neg (any_carries.not.mpr hc), List.nil_append] at h
      refine applyOnto_series ht ?_ ?_ h
      · rw [hl, totalAt, net_of_not_carries hc, Int.add_zero]
      · rw [hp, series_succ, if_neg hc]

/-! ## The rows of the series -/

variable (chain genesis base) in
theorem nodup_series (C : Nat) : ((chain.series genesis base C).map Point.time).Nodup := by
  induction C with
  | zero => simp [series]
  | succ C ih =>
    unfold series
    split
    · exact Keyed.nodup_put _ ih
    · exact ih

variable (chain genesis base) in
/-- **The row of a second**: it holds the total after the last height of that second with a change, and if there is no
such height it is the first point. -/
theorem series_row (t : Int) (C : Nat) :
    (∃ h, IsGreatest {h | h ∈ Finset.Icc 1 C ∧ chain.Carries h ∧ chain.time h = t} h ∧
      Keyed.get? Point.time t (chain.series genesis base C) = some ⟨t, chain.totalAt base h⟩) ∨
    ((∀ h ∈ Finset.Icc 1 C, chain.Carries h → chain.time h ≠ t) ∧
      Keyed.get? Point.time t (chain.series genesis base C) =
        if genesis.time = t then some genesis.point else none) := by
  induction C with
  | zero => exact .inr ⟨by simp, by simp [series, Keyed.get?, Genesis.point]⟩
  | succ C ih =>
    have hmem : ∀ h, h ∈ Finset.Icc 1 (C + 1) ↔ h ∈ Finset.Icc 1 C ∨ h = C + 1 := by
      intro h
      simp only [Finset.mem_Icc]
      omega
    by_cases hnew : chain.Carries (C + 1) ∧ chain.time (C + 1) = t
    · obtain ⟨hc, rfl⟩ := hnew
      refine .inl ⟨C + 1, ⟨⟨by simp, hc, rfl⟩, ?_⟩, ?_⟩
      · rintro h ⟨hh, -⟩
        exact (Finset.mem_Icc.mp hh).2
      · rw [series_succ, if_pos hc, Keyed.get?_put, if_pos rfl]
    · have hget : Keyed.get? Point.time t (chain.series genesis base (C + 1)) =
          Keyed.get? Point.time t (chain.series genesis base C) := by
        rw [series_succ]
        split
        · rename_i hc
          rw [Keyed.get?_put, if_neg fun ht => hnew ⟨hc, ht⟩]
        · rfl
      rw [hget]
      have hset : ∀ h, (h ∈ Finset.Icc 1 (C + 1) ∧ chain.Carries h ∧ chain.time h = t) ↔
          (h ∈ Finset.Icc 1 C ∧ chain.Carries h ∧ chain.time h = t) := by
        intro h
        rw [hmem]
        constructor
        · rintro ⟨hh | rfl, hr⟩
          · exact ⟨hh, hr⟩
          · exact absurd hr hnew
        · rintro ⟨hh, hr⟩
          exact ⟨.inl hh, hr⟩
      rcases ih with ⟨h, hg, hrow⟩ | ⟨hno, hrow⟩
      · exact .inl ⟨h, by simpa only [hset] using hg, hrow⟩
      · refine .inr ⟨fun h hh hc ht => ?_, hrow⟩
        obtain ⟨hh', -⟩ := (hset h).mp ⟨hh, hc, ht⟩
        exact hno h hh' hc ht

/-- The seconds that have a row. -/
theorem mem_series_time (t : Int) (C : Nat) : (∃ p ∈ chain.series genesis base C, p.time = t) ↔
    t = genesis.time ∨ ∃ h ∈ Finset.Icc 1 C, chain.Carries h ∧ chain.time h = t := by
  rcases chain.series_row genesis base t C with
    ⟨h, ⟨⟨hh, hc, ht⟩, -⟩, hrow⟩ | ⟨hno, hrow⟩
  · exact iff_of_true ⟨_, Keyed.mem_of_get? hrow, rfl⟩ (.inr ⟨h, hh, hc, ht⟩)
  · constructor
    · rintro ⟨p, hp, rfl⟩
      rw [(Keyed.get?_iff (chain.nodup_series genesis base C)).mpr ⟨hp, rfl⟩] at hrow
      split at hrow
      · rename_i ht
        exact .inl ht.symm
      · cases hrow
    · rintro (rfl | ⟨h, hh, hc, ht⟩)
      · rw [if_pos rfl] at hrow
        exact ⟨_, Keyed.mem_of_get? hrow, rfl⟩
      · exact absurd ht (hno h hh hc)

/-- The row of a second with changes. -/
theorem amount_of_mem_series {p : Point} {C last : Nat} (hp : p ∈ chain.series genesis base C)
    (hlast : IsGreatest {h | h ∈ Finset.Icc 1 C ∧ chain.Carries h ∧ chain.time h = p.time} last) :
    p.amount = chain.totalAt base last := by
  have hget := (Keyed.get?_iff (chain.nodup_series genesis base C)).mpr ⟨hp, rfl⟩
  rcases chain.series_row genesis base p.time C with
    ⟨h, hgreatest, hrow⟩ | ⟨hno, -⟩
  · rw [hget] at hrow
    rw [Option.some.inj hrow, hlast.unique hgreatest]
  · exact absurd hlast.1.2.2 (hno last hlast.1.1 hlast.1.2.1)

/-- The row of a second without changes. -/
theorem eq_point_of_mem_series {p : Point} {C : Nat} (hp : p ∈ chain.series genesis base C)
    (hno : ∀ h ∈ Finset.Icc 1 C, chain.Carries h → chain.time h ≠ p.time) : p = genesis.point := by
  have hget := (Keyed.get?_iff (chain.nodup_series genesis base C)).mpr ⟨hp, rfl⟩
  rcases chain.series_row genesis base p.time C with
    ⟨h, hgreatest, -⟩ | ⟨-, hrow⟩
  · exact absurd hgreatest.1.2.2 (hno h hgreatest.1.1 hgreatest.1.2.1)
  · rw [hget] at hrow
    split at hrow
    · exact Option.some.inj hrow
    · cases hrow

/-! ## The latest row -/

variable (chain genesis base) in
theorem lastPoint_mem (C : Nat) : chain.lastPoint genesis base C ∈ chain.series genesis base C := by
  induction C with
  | zero => exact List.mem_singleton_self _
  | succ C ih =>
    unfold lastPoint series
    split
    · have := Keyed.get?_put Point.time ⟨chain.time (C + 1), chain.totalAt base (C + 1)⟩ (chain.time (C + 1))
        (chain.series genesis base C)
      rw [if_pos rfl] at this
      exact Keyed.mem_of_get? this
    · exact ih

variable (chain genesis base) in
/-- The last point holds the last total, unless nothing has changed. -/
theorem lastPoint_amount (C : Nat) :
    ((∃ h ∈ Finset.Icc 1 C, chain.Carries h) ∧
      (chain.lastPoint genesis base C).amount = chain.totalAt base C) ∨
    ((∀ h ∈ Finset.Icc 1 C, ¬ chain.Carries h) ∧
      chain.lastPoint genesis base C = genesis.point ∧ chain.totalAt base C = base) := by
  induction C with
  | zero => exact .inr ⟨by simp, rfl, rfl⟩
  | succ C ih =>
    by_cases hc : chain.Carries (C + 1)
    · refine .inl ⟨⟨C + 1, by simp, hc⟩, ?_⟩
      rw [lastPoint, if_pos hc]
    · rw [lastPoint, if_neg hc, totalAt, net_of_not_carries hc, Int.add_zero]
      refine ih.imp (fun ⟨⟨h, hh, hch⟩, he⟩ => ⟨⟨h, ?_, hch⟩, he⟩) fun ⟨hno, he⟩ => ⟨fun h hh => ?_, he⟩
      · exact Finset.Icc_subset_Icc_right (by omega) hh
      · by_cases hh' : h = C + 1
        · exact hh' ▸ hc
        · have := Finset.mem_Icc.mp hh
          exact hno h (Finset.mem_Icc.mpr (by omega))

/-- With steady times, no row is later than the last point. -/
theorem series_le_lastPoint (hs : chain.Steady genesis) (C : Nat) :
    (∀ p ∈ chain.series genesis base C, p.time ≤ (chain.lastPoint genesis base C).time) ∧
      ∀ k, C < k → (chain.lastPoint genesis base C).time ≤ chain.time k := by
  induction C with
  | zero => exact ⟨by simp [series, lastPoint], fun k hk => hs.start k hk⟩
  | succ C ih =>
    obtain ⟨ih₁, ih₂⟩ := ih
    unfold series lastPoint
    split
    · refine ⟨fun p hp => ?_, fun k hk => hs.mono _ _ (by omega) (by omega)⟩
      rcases Keyed.mem_put hp with rfl | hp
      · exact le_rfl
      · exact (ih₁ p hp).trans (ih₂ (C + 1) (by omega))
    · exact ⟨ih₁, fun k hk => ih₂ k (by omega)⟩

/-- **The latest row is the last point.** -/
theorem leading?_series (hs : chain.Steady genesis) (C : Nat) :
    leading? (fun a b => pointInOrder b a) (chain.series genesis base C) =
      some (chain.lastPoint genesis base C) := by
  have hmem := chain.lastPoint_mem genesis base C
  have hnodup := chain.nodup_series genesis base C
  refine latest?_eq hmem fun p hp hle => ?_
  have hle' := (series_le_lastPoint hs C).1 p hp
  have h₁ := (Keyed.get?_iff hnodup).mpr ⟨hp, le_antisymm hle' hle⟩
  have h₂ := (Keyed.get?_iff hnodup).mpr ⟨hmem, rfl⟩
  exact Option.some.inj (h₁.symm.trans h₂)

end ConsensusChain

end StakeTrail
