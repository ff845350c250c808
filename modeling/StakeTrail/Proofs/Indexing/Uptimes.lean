import StakeTrail.Proofs.Indexing.Batches
import StakeTrail.Proofs.Uptime.Batch
import StakeTrail.Proofs.Uptime.Table

/-!
# Uptimes do not depend on batching

`Rolled` says that the table of active intervals shows, for each owner, the interval that the heights up to the
checkpoint leave of it. A batch right after the checkpoint moves this to the end of its range, or leaves the tables as
they were (`uptimes_ends`): what was found in the batch is put behind what is stored, and so are the heights.

* `Reaches` are the states of any run of consecutive batches from an empty database.
* **The main statement** (`uptimes_whole`) says what the rows are, in terms of the roster and the checkpoint alone.
-/

namespace StakeTrail.Indexing.Uptimes

open Store hiding Interval
open StakeTrail.Action Store.Database Session Consensus Uptime

variable {γ : Type} {roster : Roster} {C : Nat} {t : Tables} {l : Stake.Ledger} {feed : ConsensusFeed}
  {cache : Cache γ} {last : Nat}

/-- **The table at `C`**: each owner has its row, and it shows the interval that the heights up to `C` leave. -/
structure Rolled (roster : Roster) (C : Nat) (t : Tables) : Prop where
  checkpoint : t.reached uptimeName = C
  half : C < 0x80000000
  nodup : (t.intervals.map Interval.owner).Nodup
  row : ∀ a, Option.Rel Shows (Keyed.get? Interval.owner a t.intervals) ((roster.attendance a).since 0 C)

/-- An interval found in a batch, put behind the stored row. -/
theorem rel_placed {v : Attendance} {m n : Nat} {row : Option Interval} (hrow : Option.Rel Shows row (v.since 0 m))
    (hhalf : m + n < 0x80000000) :
    Option.Rel Shows
      (match v.since m n with
      | none => row
      | some i => some (placed i row))
      (v.since 0 (m + n)) := by
  rw [v.since_add 0 m n, Nat.zero_add]
  rcases hi : v.since m n with _ | i
  · exact hrow
  have hlast := Finset.mem_Ioc.mp (Attendance.last_since hi).1.1
  have hfirst := Finset.mem_Ioc.mp (Attendance.run_since hi).1.1.1
  rcases hs : v.since 0 m with _ | s <;> rw [hs] at hrow <;> cases hrow
  · exact .some (.rfl i)
  · rename_i r hr
    have := Finset.mem_Ioc.mp (Attendance.last_since hs).1.1
    exact .some (hr.joined (by omega) (by omega))

/-- **A batch right after the checkpoint** moves the table to the end of its range. Whatever fails before the commit
leaves it as it was; after it, only the cache can fail. -/
theorem uptimes_ends (hc : roster.Consistent) (hs : Rolled roster C t) (hf : feed.Lists roster)
    (hle : C ≤ last) (hlast : last < 0x80000000) :
    Ends (At t l) ((uptimes feed cache).cover (C + 1) last)
      (fun _ s => Rolled roster last s.database.tables) (fun s => ∃ C, Rolled roster C s.database.tables) := by
  have keep : ∀ s : Session γ, At t l s → ∃ C, Rolled roster C s.database.tables := fun s h => ⟨C, h.1 ▸ hs⟩
  refine (Ends.ofExcept.fault keep).bind fun found => Ends.assuming fun hfound => ?_
  refine (Ends.ofExcept.fault keep).bind fun tracker => Ends.assuming fun htracker => ?_
  have hmap := gather_evidence hf hfound
  have hlength : found.length = last - C := by
    have := congrArg List.length hmap
    simp only [List.length_map, List.length_range'] at this
    omega
  rw [show last + 1 - (C + 1) = found.length by omega] at hmap
  have hfollowed := Roster.Followed.trackAll hc hmap (.nil roster C) htracker
  rw [Nat.zero_add, hlength] at hfollowed
  refine ((onStore_ends (intervals_ends uptimeName tracker.rows last)).mono (fun _ h => h) ?_ keep).bind fun _ =>
    onCache_keeps.fault fun s h => ⟨last, h⟩
  rintro _ s ⟨⟨hcheck, ht⟩, -⟩
  rw [show s.database.tables = _ from ht]
  -- the rows of the batch behind the stored rows
  have hreached : t.reached uptimeName = C := hs.checkpoint
  refine ⟨?_, hlast, nodup_putIntervals _ hs.nodup, fun a => ?_⟩
  · refine (reached_advance rfl hcheck (by omega) (by omega)).trans ?_
    omega
  · change Option.Rel Shows (Keyed.get? Interval.owner a (putIntervals tracker.rows t.intervals)) _
    rw [get?_putIntervals a (hfollowed.nodup_rows hc), hfollowed.get?_rows hc]
    have hrel := rel_placed (n := last - C) (hs.row a) (by omega)
    rwa [Nat.add_sub_cancel' hle] at hrel

/-! ## Runs -/

/-- A run of the indexer of uptimes. -/
abbrev Reaches (roster : Roster) : Session γ → Prop := Batches roster uptimeName uptimes fun t => t.intervals

theorem uptimes_roll (hc : roster.Consistent) :
    Rolls roster uptimeName (uptimes (γ := γ)) (fun t => t.intervals) (Rolled roster) where
  empty := ⟨rfl, by decide, List.nodup_nil, fun _ => .none⟩
  reached hs := hs.checkpoint
  frame hs hrows hreached :=
    ⟨hreached.trans hs.checkpoint, hs.half, by rw [hrows]; exact hs.nodup, by rw [hrows]; exact hs.row⟩
  batch hs hf hle hlast := uptimes_ends hc hs hf hle hlast

/-- **Uptimes do not depend on batching.** Whatever consecutive ranges the heights up to the checkpoint were cut into,
and whatever failed between them, the table holds one row for each validator that was active at one of these heights:

* it ends at the last height at which the validator was active,
* it begins with the unbroken run of active heights that ends there, and
* its votes are the signatures of this run that commit to the block, as far as a column can count them: below `2 ^ 63`. -/
theorem uptimes_whole (hc : roster.Consistent) {s : Session γ} (h : Reaches roster s) :
    ∃ C, s.database.tables.reached uptimeName = C ∧
      (s.database.tables.intervals.map Interval.owner).Nodup ∧
      (∀ a, (∃ row ∈ s.database.tables.intervals, row.owner = a) ↔
        ∃ h ∈ Finset.Icc 1 C, roster.isActive a h = true) ∧
      ∀ row ∈ s.database.tables.intervals,
        IsGreatest {h | h ∈ Finset.Icc 1 C ∧ roster.isActive row.owner h = true} row.last ∧
        IsLeast {f | f ∈ Finset.Icc 1 row.last ∧ ∀ h ∈ Finset.Icc f row.last, roster.isActive row.owner h = true}
          row.first ∧
        (∑ h ∈ Finset.Icc row.first row.last, (roster.commit h).countP (roster.commits row.owner h) <
            0x8000000000000000 →
          row.votes = ∑ h ∈ Finset.Icc row.first row.last, (roster.commit h).countP (roster.commits row.owner h)) := by
  obtain ⟨C, hs⟩ := h.stands (uptimes_roll hc)
  have hrow : ∀ row ∈ s.database.tables.intervals,
      ∃ i, (roster.attendance row.owner).since 0 C = some i ∧ Shows row i := by
    intro row hmem
    have hrel := hs.row row.owner
    rw [(Keyed.get?_iff hs.nodup).mpr ⟨hmem, rfl⟩] at hrel
    rcases hi : (roster.attendance row.owner).since 0 C with _ | i <;> rw [hi] at hrel <;> cases hrel
    exact ⟨i, rfl, ‹_›⟩
  refine ⟨C, hs.checkpoint, hs.nodup, fun a => ⟨?_, ?_⟩, fun row hmem => ?_⟩
  · rintro ⟨row, hmem, rfl⟩
    obtain ⟨i, hi, -⟩ := hrow row hmem
    obtain ⟨hlast, hactive⟩ := (Attendance.last_since hi).1
    rw [Finset.mem_Ioc] at hlast
    exact ⟨i.last, Finset.mem_Icc.mpr (by omega), hactive⟩
  · rintro ⟨h, hh, hactive⟩
    rw [Finset.mem_Icc] at hh
    have hrel := hs.row a
    rcases hi : (roster.attendance a).since 0 C with _ | i
    · have := Attendance.since_eq_none_iff.mp hi h (Finset.mem_Ioc.mpr (by omega))
      rw [show (roster.attendance a).active h = roster.isActive a h from rfl, hactive] at this
      cases this
    · rw [hi] at hrel
      rcases hg : Keyed.get? Interval.owner a s.database.tables.intervals with _ | row <;> rw [hg] at hrel
      · cases hrel
      · exact ⟨row, Keyed.mem_of_get? hg, Keyed.key_of_get? hg⟩
  · obtain ⟨i, hi, hshows⟩ := hrow row hmem
    obtain ⟨hleast, hvotes⟩ := Attendance.run_since hi
    have hgreatest := Attendance.last_since hi
    rw [Nat.zero_add] at hgreatest
    rw [← hshows.first, ← hshows.last] at hvotes
    rw [← hshows.first, ← hshows.last] at hleast
    rw [← hshows.last] at hgreatest
    exact ⟨hgreatest, hleast, fun hcolumn => (hshows.votes (by rw [hvotes]; exact hcolumn)).trans hvotes⟩

/-! ## A run -/

/-- An empty database, the checkpoint set up, and the heights 1 to 4 in two ranges. -/
def sampleRun : Session Unit :=
  let fresh := ((Session.loop {}).checkpoints.setup uptimeName { database := {}, cache := (), ledger := ⟨0⟩ }).2
  let earlier := ((uptimes soleFeed (Cache.refusing "")).cover 1 3 fresh).2
  ((uptimes soleFeed (Cache.refusing "")).cover 4 4 earlier).2

theorem mem_soleRoster {h : Nat} {v : Validator} (hv : v ∈ soleRoster.validators h) : v = sole := by
  simp only [soleRoster] at hv
  split at hv <;> simp_all

theorem soleRoster_consistent : soleRoster.Consistent where
  oneKey _ _ _ hv _ hw _ := by rw [mem_soleRoster hv, mem_soleRoster hw]
  oneAddress _ _ _ hv _ hw _ _ _ := by rw [mem_soleRoster hv, mem_soleRoster hw]
  signers h s hs hflag := by
    simp only [soleRoster] at hs ⊢
    split at hs
    · cases List.mem_singleton.mp hs
      cases hflag
    · rename_i hne
      cases List.mem_singleton.mp hs
      exact ⟨sole, by simp [hne], by decide⟩

theorem sampleRun_reaches : Reaches soleRoster sampleRun := by
  obtain ⟨a, ha⟩ : ∃ a, Address.ofKey sole.key = .ok a := ⟨_, sole_owner⟩
  have hempty : Reaches soleRoster ({ database := {}, cache := (), ledger := ⟨0⟩ } : Session Unit) := .empty rfl
  refine ((hempty.setup (fun _ _ => rfl) {} uptimeName).range soleFeed_lists (by cbv) (by decide) (by decide)).range
    soleFeed_lists ?_ (by decide) (by decide)
  simp only [uptimes, evidence_sole ha]
  cbv

/-- The table after the run: the validator is active since height 3, and the intervals of both ranges were put together.
The last height is the last one at which the roster has it. -/
theorem sampleRun_whole : ∃ a, Address.ofKey sole.key = .ok a ∧
    sampleRun.database.tables.intervals = [⟨a, 3, 4, 2⟩] ∧
      IsGreatest {h | h ∈ Finset.Icc 1 4 ∧ soleRoster.isActive a h = true} 4 := by
  obtain ⟨a, ha⟩ : ∃ a, Address.ofKey sole.key = .ok a := ⟨_, sole_owner⟩
  have hrows : sampleRun.database.tables.intervals = [⟨a, 3, 4, 2⟩] := by
    simp only [sampleRun, uptimes, evidence_sole ha]
    cbv
  have hreached : sampleRun.database.tables.reached uptimeName = 4 := by
    simp only [sampleRun, uptimes, evidence_sole ha]
    cbv
  obtain ⟨C, hC, -, -, hrow⟩ := uptimes_whole soleRoster_consistent sampleRun_reaches
  have hfour : C = 4 := hC.symm.trans hreached
  subst hfour
  exact ⟨a, ha, hrows, (hrow ⟨a, 3, 4, 2⟩ (by simp [hrows])).1⟩

end StakeTrail.Indexing.Uptimes
