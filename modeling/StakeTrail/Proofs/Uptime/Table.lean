import StakeTrail.Proofs.Store.Commits
import StakeTrail.Proofs.Uptime.Attendance

/-!
# The table of active intervals

A row `Shows` an interval when it has its owner and its ends, and its votes as far as a column can count them. Writing an
interval over a row that shows an earlier one leaves a row that shows the later after the earlier (`Shows.joined`), so a
commit of intervals does this for each owner among them and leaves the other rows alone (`get?_putIntervals`).
-/

namespace StakeTrail.Uptime

open StakeTrail.Action Store Database

variable {t : Tables}

/-- **A row shows an interval.** -/
structure Shows (row i : Interval) : Prop where
  owner : row.owner = i.owner
  first : row.first = i.first
  last : row.last = i.last
  votes : i.votes < 0x8000000000000000 → row.votes = i.votes

theorem Shows.rfl (i : Interval) : Shows i i := ⟨Eq.refl _, Eq.refl _, Eq.refl _, fun _ => Eq.refl _⟩

/-- A sum that a signed word holds is a sum in a column. -/
theorem columnSum_eq {a b : Nat} (h : a + b < 0x8000000000000000) : columnSum a b = a + b := by
  unfold columnSum Word.unsigned Word.signed
  omega

/-- **A later interval over a row that shows an earlier one.** -/
theorem Shows.joined {row s i : Interval} (h : Shows row s) (hs : s.last < 0x80000000) (hi : i.first < 0x80000000) :
    Shows (Store.joined row i) (i.following (some s)) := by
  have hiff : Word.signed row.last + 1 = Word.signed i.first ↔ s.last + 1 = i.first := by
    rw [h.last, Word.signed_of_lt (by omega), Word.signed_of_lt (by omega)]
    omega
  unfold Store.joined Interval.following
  by_cases hnext : s.last + 1 = i.first
  · simp only [if_pos (hiff.mpr hnext), if_pos hnext]
    refine ⟨Eq.refl _, h.first, Eq.refl _, fun hv => ?_⟩
    have hv : s.votes + i.votes < 0x8000000000000000 := hv
    rw [h.votes (by omega), columnSum_eq hv]
  · simp only [if_neg (hiff.not.mpr hnext), if_neg hnext]
    exact .rfl i

/-- The row that an interval leaves. -/
def placed (i : Interval) : Option Interval → Interval
  | none => i
  | some row => joined row i

theorem owner_placed (i : Interval) (row : Option Interval) : (placed i row).owner = i.owner := by
  rcases row with _ | row
  · rfl
  · simp only [placed, joined]
    split <;> rfl

theorem putInterval_eq (i : Interval) (rows : List Interval) :
    putInterval i rows = Keyed.put Interval.owner (placed i (Keyed.get? Interval.owner i.owner rows)) rows := by
  unfold putInterval
  rcases Keyed.get? Interval.owner i.owner rows with _ | row <;> rfl

/-- The rows that intervals leave, written one after the other. -/
def putIntervals (intervals rows : List Interval) : List Interval :=
  intervals.foldl (fun rows i => putInterval i rows) rows

theorem nodup_putIntervals (intervals : List Interval) {rows : List Interval} (h : (rows.map Interval.owner).Nodup) :
    ((putIntervals intervals rows).map Interval.owner).Nodup := by
  unfold putIntervals
  induction intervals generalizing rows with
  | nil => exact h
  | cons i intervals ih =>
    rw [List.foldl_cons, putInterval_eq]
    exact ih (Keyed.nodup_put _ h)

/-- **Each owner among the intervals** has its row written, and all other rows stay. -/
theorem get?_putIntervals (a : String) {intervals : List Interval} (hn : (intervals.map Interval.owner).Nodup)
    (rows : List Interval) :
    Keyed.get? Interval.owner a (putIntervals intervals rows) =
      match Keyed.get? Interval.owner a intervals with
      | none => Keyed.get? Interval.owner a rows
      | some i => some (placed i (Keyed.get? Interval.owner a rows)) := by
  unfold putIntervals
  induction intervals generalizing rows with
  | nil => rfl
  | cons i intervals ih =>
    obtain ⟨hi, hn⟩ := List.nodup_cons.mp hn
    rw [List.foldl_cons, ih hn, putInterval_eq, Keyed.get?_put, owner_placed]
    by_cases ha : i.owner = a
    · subst ha
      have hnone : Keyed.get? Interval.owner i.owner intervals = none :=
        Keyed.get?_eq_none.mpr fun j hj hji => hi (List.mem_map.mpr ⟨j, hj, hji⟩)
      simp only [hnone, Keyed.get?, if_true]
    · simp only [Keyed.get?, ha, if_false]

theorem intervals_ends (name : String) (intervals : List Interval) (height : Nat) :
    Ends (Holds t) (Commit.intervals name intervals height)
      (fun _ d => (∃ c, t.checkpoint? name = some c) ∧
        Holds (Tables.advance name height { t with intervals := putIntervals intervals t.intervals }) d)
      (Holds t) :=
  batch_found_ends_of (u := { t with intervals := putIntervals intervals t.intervals })
    (each_into_ends putInterval (fun t => t.intervals) (fun rows t => { t with intervals := rows }) (fun _ _ => rfl)
      (fun _ _ _ => rfl) (fun _ => rfl) intervals)

end StakeTrail.Uptime
