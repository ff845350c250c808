import Mathlib
import StakeTrail.Proofs.Store.Lookups

/-!
# The series of an interval

A series that goes back to some moment, its cutoff, is put together from two queries: the last point at or before the
cutoff, which is the one `InForce` there, and the points after it. Stored points have distinct times, and `Readable` ones
come back as they are stored.

**The main statement** (`totalSeries_windowed`): the series is the table seen from the cutoff. It is ordered by time, holds
every point after the cutoff and before them the one in force at it, and at each later moment the same point is in force
in the series as in the table.
-/

namespace StakeTrail.Store

open Stake

variable {t : Tables} {points : List Point} {p : Point} {moment cutoff : Int}

/-! ## Points in force -/

/-- **The point in force at a moment**: the last one at or before it. -/
structure InForce (points : List Point) (moment : Int) (p : Point) : Prop where
  mem : p ∈ points
  reached : p.time ≤ moment
  last : ∀ p' ∈ points, p'.time ≤ moment → p'.time ≤ p.time

/-- Once there is a point, one is in force. -/
theorem exists_inForce (hp : p ∈ points) (hreached : p.time ≤ moment) : ∃ p', InForce points moment p' := by
  obtain ⟨p', hp', hlast⟩ := (points.toFinset.filter fun p => p.time ≤ moment).exists_max_image Point.time
    ⟨p, by simp [hp, hreached]⟩
  simp only [Finset.mem_filter, List.mem_toFinset, and_imp] at hp' hlast
  exact ⟨p', hp'.1, hp'.2, hlast⟩

/-- **What is seen from a cutoff**: some points of the table with all those after the cutoff and the one in force at it
have the same point in force from the cutoff on. -/
theorem inForce_iff {table series : List Point}
    (hseries : ∀ p, p ∈ series ↔ p ∈ table ∧ (cutoff < p.time ∨ InForce table cutoff p)) (hmoment : cutoff ≤ moment) :
    InForce series moment p ↔ InForce table moment p := by
  constructor
  · rintro ⟨hp, hreached, hlast⟩
    refine ⟨((hseries p).mp hp).1, hreached, fun p' hp' hreached' => ?_⟩
    by_cases hafter : cutoff < p'.time
    · exact hlast p' ((hseries p').mpr ⟨hp', .inl hafter⟩) hreached'
    · -- the point in force at the cutoff lies between the two
      obtain ⟨first, hfirst⟩ := exists_inForce hp' (not_lt.mp hafter)
      calc
        p'.time ≤ first.time := hfirst.last p' hp' (not_lt.mp hafter)
        _ ≤ p.time := hlast first ((hseries first).mpr ⟨hfirst.mem, .inr hfirst⟩) (hfirst.reached.trans hmoment)
  · rintro ⟨hp, hreached, hlast⟩
    refine ⟨(hseries p).mpr ⟨hp, ?_⟩, hreached, fun p' hp' => hlast p' ((hseries p').mp hp').1⟩
    by_cases hafter : cutoff < p.time
    · exact .inl hafter
    · exact .inr ⟨hp, not_lt.mp hafter, fun p' hp' hreached' => hlast p' hp' (hreached'.trans hmoment)⟩

/-! ## Queries for points -/

/-- Points whose times and amounts are half words and not negative. -/
def Readable (points : List Point) : Prop :=
  ∀ p ∈ points, (0 ≤ p.time ∧ p.time < 0x80000000) ∧ 0 ≤ p.amount ∧ p.amount < 0x80000000

instance (points : List Point) : Decidable (Readable points) := inferInstanceAs (Decidable (∀ p ∈ points, _))

theorem Readable.point (h : Readable points) (hp : p ∈ points) : readBackPoint p = p := by
  obtain ⟨⟨hstart, htime⟩, hnone, hamount⟩ := h p hp
  rw [readBackPoint, Word.low_of_lt (by omega) htime, Word.low_of_lt (by omega) hamount]

/-- Readable points come back as they are stored. -/
theorem Readable.map_readBackPoint (h : Readable points) : points.map readBackPoint = points :=
  Keyed.map_eq_self fun _ hp => h.point hp

theorem Readable.of_subset {rows : List Point} (h : Readable points) (hrows : rows ⊆ points) : Readable rows :=
  fun p hp => h p (hrows hp)

/-- Points in order of their times, of which no two are equal. -/
theorem pairwise_sorted (hnodup : (points.map Point.time).Nodup) :
    (points.mergeSort pointInOrder).Pairwise fun p p' => p.time < p'.time := by
  have hle : (points.mergeSort pointInOrder).Pairwise fun p p' => pointInOrder p p' = true :=
    List.pairwise_mergeSort pointInOrder_trans pointInOrder_total points
  have hne : (points.mergeSort pointInOrder).Pairwise fun p p' => p.time ≠ p'.time := by
    rw [← List.pairwise_map]
    exact ((List.mergeSort_perm points _).map Point.time).nodup_iff.mpr hnodup
  refine hle.imp₂ (fun p p' hle hne => ?_) hne
  simp only [pointInOrder, decide_eq_true_eq] at hle
  omega

/-- **Every point** is answered, in order. -/
theorem allTotals_answers (h : Readable t.totals) : Answers t allTotals (t.totals.mergeSort pointInOrder) := by
  have hsorted : Readable (t.totals.mergeSort pointInOrder) := h.of_subset (List.mergeSort_perm _ _).subset
  have hanswer : Answers t allTotals ((t.totals.mergeSort pointInOrder).map readBackPoint) := .query _
  rwa [hsorted.map_readBackPoint] at hanswer

/-- **The points after a moment** are answered, in order. -/
theorem totalsAfter_answers (h : Readable t.totals) (moment : Int) :
    Answers t (totalsAfter moment) ((t.totals.filter fun p => moment < p.time).mergeSort pointInOrder) := by
  have hsorted : Readable ((t.totals.filter fun p => moment < p.time).mergeSort pointInOrder) :=
    h.of_subset fun p hp => (List.mem_filter.mp (List.mem_mergeSort.mp hp)).1
  have hanswer : Answers t (totalsAfter moment)
      (((t.totals.filter fun p => moment < p.time).mergeSort pointInOrder).map readBackPoint) := .query _
  rwa [hsorted.map_readBackPoint] at hanswer

/-- **The point in force at a moment** is answered, if there is one. -/
theorem totalAt_answers (h : Readable t.totals) (hnodup : (t.totals.map Point.time).Nodup) (moment : Int) :
    ∃ found, Answers t (totalAt moment) found ∧ ∀ p, found = some p ↔ InForce t.totals moment p := by
  have hiff : ∀ p, leading? (fun a b => pointInOrder b a) (t.totals.filter fun p => p.time ≤ moment) = some p ↔
      InForce t.totals moment p := by
    intro p
    constructor
    · intro hp
      obtain ⟨hmem, hlast⟩ := mem_of_latest? hp
      simp only [List.mem_filter, decide_eq_true_eq, and_imp] at hmem hlast
      exact ⟨hmem.1, hmem.2, hlast⟩
    · intro hp
      refine latest?_eq (by simp [hp.mem, hp.reached]) fun p' hp' hle => ?_
      simp only [List.mem_filter, decide_eq_true_eq] at hp'
      exact List.inj_on_of_nodup_map hnodup hp'.1 hp.mem (le_antisymm (hp.last p' hp'.1 hp'.2) hle)
  refine ⟨_, .query _, fun p => ?_⟩
  rw [← hiff]
  rcases hfound : leading? (fun a b => pointInOrder b a) (t.totals.filter fun p => p.time ≤ moment) with _ | found
  · simp
  · rw [Option.map_some, h.point ((hiff found).mp hfound).mem]

/-! ## Series -/

/-- **A series is the table seen from its cutoff.** For stored points with distinct times, and a moment from which the
length of the interval can be taken away, the series is ordered by time. With a cutoff it is the point in force there, if
there is one, and then the points after the cutoff, so that at each moment from the cutoff on the same point is in force
in the series as in the table. Without one it is the whole table. -/
theorem totalSeries_windowed (hrange : Readable t.totals) (hnodup : (t.totals.map Point.time).Nodup) (interval : Interval)
    (now : Int) (hfits : ∀ window, interval.seconds = some window → Word.fits (now - window) = true) :
    ∃ series, Answers t (totalSeries interval now) series ∧ (series.Pairwise fun p p' => p.time < p'.time) ∧
      (interval.seconds = none → series.Perm t.totals) ∧
      ∀ window, interval.seconds = some window →
        (∃ (leading : Option Point) (rest : List Point), series = leading.toList ++ rest ∧
          (∀ p, leading = some p ↔ InForce t.totals (now - window) p) ∧
          ∀ p, p ∈ rest ↔ p ∈ t.totals ∧ now - window < p.time) ∧
        ∀ moment, now - window ≤ moment → ∀ p, InForce series moment p ↔ InForce t.totals moment p := by
  rcases hseconds : interval.seconds with _ | window
  · refine ⟨t.totals.mergeSort pointInOrder, ?_, pairwise_sorted hnodup, fun _ => List.mergeSort_perm _ _, ?_⟩
    · rw [totalSeries, hseconds]
      exact allTotals_answers hrange
    · rintro window ⟨⟩
  · obtain ⟨leading, hfound, hleading⟩ := totalAt_answers hrange hnodup (now - window)
    have hafter := totalsAfter_answers hrange (now - window)
    have hsorted := pairwise_sorted (hnodup.sublist (List.filter_sublist.map Point.time) :
      ((t.totals.filter fun p => now - window < p.time).map Point.time).Nodup)
    have hrest : ∀ p, p ∈ (t.totals.filter fun p => now - window < p.time).mergeSort pointInOrder ↔
        p ∈ t.totals ∧ now - window < p.time := by simp
    generalize (t.totals.filter fun p => now - window < p.time).mergeSort pointInOrder = rest at hafter hsorted hrest
    have hseries : ∀ p, p ∈ leading.toList ++ rest ↔
        p ∈ t.totals ∧ (now - window < p.time ∨ InForce t.totals (now - window) p) := by
      intro p
      rw [List.mem_append, Option.mem_toList, hleading, hrest, and_or_left, or_comm]
      exact or_congr_right (and_iff_right_of_imp InForce.mem).symm
    refine ⟨leading.toList ++ rest, ?_, ?_, ?_, ?_⟩
    · simp only [totalSeries, hseconds, hfits window hseconds, if_true]
      exact hfound.bind (hafter.bind (.pure _))
    · rw [List.pairwise_append]
      refine ⟨?_, hsorted, fun p hp p' hp' => ?_⟩
      · cases leading <;> simp
      · -- the leading point is not after the cutoff, and the others are
        have hp := (hleading p).mp (by simpa using hp)
        exact hp.reached.trans_lt ((hrest p').mp hp').2
    · rintro ⟨⟩
    · rintro window ⟨⟩
      exact ⟨⟨leading, rest, rfl, hleading, hrest⟩, fun moment hmoment p => inForce_iff hseries hmoment⟩

/-! ### A point on the cutoff -/

/-- Three points, in no order. -/
def sampleTotals : Tables where
  totals := [⟨30, 8⟩, ⟨10, 5⟩, ⟨20, 7⟩]

/-- **The day that starts with the second point** shows this point, which is in force until the third, and not the first
one. -/
theorem sampleTotals_windowed : ∃ series, Answers sampleTotals (totalSeries .oneDay 86420) series ∧
    ⟨30, 8⟩ ∈ series ∧ ⟨10, 5⟩ ∉ series ∧ InForce series 20 ⟨20, 7⟩ ∧ InForce series 29 ⟨20, 7⟩ := by
  obtain ⟨series, hanswer, -, -, hwindow⟩ := totalSeries_windowed (t := sampleTotals) (by decide) (by decide) .oneDay 86420
    (by rintro window ⟨⟩; decide)
  obtain ⟨⟨leading, rest, rfl, hleading, hrest⟩, hforce⟩ := hwindow 86400 rfl
  refine ⟨_, hanswer, ?_, ?_, ?_, ?_⟩
  · rw [List.mem_append, hrest]
    exact .inr (by decide)
  · rw [List.mem_append, Option.mem_toList, hleading, hrest]
    rintro (hfirst | ⟨-, hlater⟩)
    · exact absurd (hfirst.last ⟨20, 7⟩ (by decide) (by decide)) (by decide)
    · exact absurd hlater (by decide)
  · rw [hforce 20 (by decide)]
    exact ⟨by decide, by decide, by decide⟩
  · rw [hforce 29 (by decide)]
    exact ⟨by decide, by decide, by decide⟩

end StakeTrail.Store
