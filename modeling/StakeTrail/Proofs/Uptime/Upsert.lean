import StakeTrail.Proofs.Store.Atomic
import StakeTrail.Proofs.Uptime.Table

/-!
# The table joins intervals as `merge` does

There are two ways to join an interval to an earlier one of its owner: `merge` adds up numbers, and the table of
intervals compares and adds columns of signed words. Below the bounds of a word they agree on one row (`merge_eq`), and
so on a list of them in which later rows see what earlier ones left (`mergedAll_eq`).

**The main statement** (`intervals_merged`) says so for commits.
-/

namespace StakeTrail.Uptime

open Store Database

variable {table rows : List Interval} {i : Interval}

/-- A table in which the entry of one owner is merged with an interval. -/
def merged (table : List Interval) (i : Interval) : Except Fault (List Interval) :=
  (merge (Keyed.get? Interval.owner i.owner table) i).map fun entry => Keyed.put Interval.owner entry table

/-- A table after some intervals, taken one by one. -/
def mergedAll (table rows : List Interval) : Except Fault (List Interval) := rows.foldlM merged table

/-- The heights of an interval have a following one in a column. -/
structure Low (i : Interval) : Prop where
  first : i.first < 0x7FFFFFFFFFFFFFFF
  last : i.last < 0x7FFFFFFFFFFFFFFF

/-- **Votes can be counted**: every sum that comes up when the intervals are merged is one that a column holds. -/
def Countable : List Interval → List Interval → Prop
  | _, [] => True
  | table, i :: rest =>
    (∀ s, Keyed.get? Interval.owner i.owner table = some s → s.last + 1 = i.first →
      s.votes + i.votes < 0x8000000000000000) ∧
    ∀ next, merged table i = .ok next → Countable next rest

/-! ## One interval -/

/-- **Columns join what `merge` joins.** -/
theorem merge_eq {entry : Option Interval} (hentry : ∀ s, entry = some s → Low s) (hi : Low i)
    (hvotes : ∀ s, entry = some s → s.last + 1 = i.first → s.votes + i.votes < 0x8000000000000000) :
    merge entry i = .ok (placed i entry) := by
  rcases entry with _ | s
  · rfl
  · have hlast := (hentry s rfl).last
    have hfirst := hi.first
    have hsuccessor : successor s.last = .ok (s.last + 1) := by
      refine if_pos ?_
      unfold Word.top
      omega
    have hiff : Word.signed s.last + 1 = Word.signed i.first ↔ s.last + 1 = i.first := by
      rw [Word.signed_of_lt (by omega), Word.signed_of_lt (by omega)]
      omega
    simp only [merge, hsuccessor, bind, Except.bind, placed, joined]
    by_cases hnext : s.last + 1 = i.first
    · have hcolumn := hvotes s rfl hnext
      have hsum : s.votes + i.votes ≤ Word.top := by
        unfold Word.top
        omega
      rw [if_pos hnext, if_pos hsum, if_pos (hiff.mpr hnext), columnSum_eq hcolumn]
    · rw [if_neg hnext, if_neg (hiff.not.mpr hnext)]

theorem low_placed {entry : Option Interval} (hentry : ∀ s, entry = some s → Low s) (hi : Low i) :
    Low (placed i entry) := by
  rcases entry with _ | s
  · exact hi
  · simp only [placed, joined]
    split
    · exact { first := (hentry s rfl).first, last := hi.last }
    · exact hi

theorem low_of_get? (hlow : ∀ s ∈ table, Low s) (a : String) :
    ∀ s, Keyed.get? Interval.owner a table = some s → Low s :=
  fun s hs => hlow s (Keyed.mem_of_get? hs)

theorem low_putInterval (hlow : ∀ s ∈ table, Low s) (hi : Low i) : ∀ s ∈ putInterval i table, Low s := by
  intro s hs
  rw [putInterval_eq] at hs
  rcases Keyed.mem_put hs with rfl | hs
  · exact low_placed (low_of_get? hlow i.owner) hi
  · exact hlow s hs

/-! ## A list of them -/

/-- **Intervals that are written one after the other** are merged one after the other. -/
theorem mergedAll_eq : ∀ {rows table : List Interval}, (∀ s ∈ table, Low s) → (∀ i ∈ rows, Low i) →
    Countable table rows → mergedAll table rows = .ok (putIntervals rows table)
  | [], _, _, _, _ => rfl
  | i :: rows, table, htable, hrows, hcount => by
    obtain ⟨hi, hrows⟩ := List.forall_mem_cons.mp hrows
    have hmerged : merged table i = .ok (putInterval i table) := by
      rw [merged, merge_eq (low_of_get? htable i.owner) hi hcount.1, putInterval_eq]
      rfl
    have hnext := mergedAll_eq (low_putInterval htable hi) hrows (hcount.2 _ hmerged)
    rw [mergedAll, List.foldlM_cons, hmerged]
    exact hnext

/-- The entries of owners without an interval stay. -/
theorem get?_putIntervals_of_ne {a : String} : ∀ {rows table : List Interval}, (∀ i ∈ rows, i.owner ≠ a) →
    Keyed.get? Interval.owner a (putIntervals rows table) = Keyed.get? Interval.owner a table
  | [], _, _ => rfl
  | i :: rows, table, hrows => by
    obtain ⟨hi, hrows⟩ := List.forall_mem_cons.mp hrows
    calc Keyed.get? Interval.owner a (putIntervals rows (putInterval i table))
        = Keyed.get? Interval.owner a (putInterval i table) := get?_putIntervals_of_ne hrows
      _ = Keyed.get? Interval.owner a table := by
        rw [putInterval_eq, Keyed.get?_put, owner_placed, if_neg hi]

/-- **A commit of intervals merges them into the table**, one by one, so that a later interval of an owner meets what an
earlier one left; the entries of all other owners stay. This holds for heights and sums of votes that a column can hold.
The commit succeeds just when no statement is refused and its checkpoint was set up, and otherwise leaves everything. -/
theorem intervals_merged (name : String) (height : Nat) (d : Database)
    (hlow : ∀ i ∈ d.tables.intervals ++ rows, Low i) (hcount : Countable d.tables.intervals rows) :
    ∃ table, mergedAll d.tables.intervals rows = .ok table ∧
      (∀ a, (∀ i ∈ rows, i.owner ≠ a) →
        Keyed.get? Interval.owner a table = Keyed.get? Interval.owner a d.tables.intervals) ∧
      ((Commit.intervals name rows height d).1 = .ok () ↔
        Quiet d (Commit.intervals name rows height d).2 ∧ ∃ c, d.tables.checkpoint? name = some c) ∧
      ((Commit.intervals name rows height d).1 = .ok () →
        (Commit.intervals name rows height d).2.tables.intervals = table) ∧
      ∀ e, (Commit.intervals name rows height d).1 = .error e →
        (Commit.intervals name rows height d).2.tables = d.tables := by
  obtain ⟨htable, hrows⟩ := List.forall_mem_append.mp hlow
  have hends := intervals_ends (t := d.tables) name rows height d rfl
  refine ⟨_, mergedAll_eq htable hrows hcount, fun _ => get?_putIntervals_of_ne, ?_, fun hok => ?_, fun e he => ?_⟩
  · change ((Batch.intervals rows).commit name height d).1 = .ok () ↔
      Quiet d ((Batch.intervals rows).commit name height d).2 ∧ _
    rcases commit_cases (.intervals rows) name height d with
      ⟨hq, h⟩ | ⟨hq, ⟨hl, -⟩ | ⟨-, ⟨hc, h⟩ | ⟨⟨c, hc⟩, h, -⟩⟩⟩
    · simp [h, hq]
    · exact absurd trivial hl
    · simp [h, hc]
    · simp [h, hq, hc]
  · rcases hrun : Commit.intervals name rows height d with ⟨e | ⟨⟩, d'⟩ <;> rw [hrun] at hok hends
    · cases hok
    · rw [hends.2]
      rfl
  · rcases hrun : Commit.intervals name rows height d with ⟨e | ⟨⟩, d'⟩ <;> rw [hrun] at he hends
    · exact hends
    · cases he

/-! ### An owner that comes twice -/

/-- Two owners, up to height 10. -/
def sampleUptimes : Database where
  tables := { checkpoints := [⟨"uptimes", 10⟩], intervals := [⟨"0xa", 1, 10, 5⟩, ⟨"0xb", 1, 10, 9⟩] }

/-- The first owner goes on, twice; the second left out a height. -/
def sampleRows : List Interval := [⟨"0xa", 11, 20, 10⟩, ⟨"0xb", 12, 20, 8⟩, ⟨"0xa", 21, 30, 7⟩]

/-- The interval of the first owner grows by both of its rows, that of the second begins again. -/
theorem sampleRows_merged :
    mergedAll sampleUptimes.tables.intervals sampleRows = .ok [⟨"0xa", 1, 30, 22⟩, ⟨"0xb", 12, 20, 8⟩] ∧
    (Commit.intervals "uptimes" sampleRows 30 sampleUptimes).1 = .ok () ∧
    (Commit.intervals "uptimes" sampleRows 30 sampleUptimes).2.tables.intervals =
      [⟨"0xa", 1, 30, 22⟩, ⟨"0xb", 12, 20, 8⟩] := by
  have hlow : ∀ i ∈ sampleUptimes.tables.intervals ++ sampleRows, Low i := by
    have hbound : ∀ i ∈ sampleUptimes.tables.intervals ++ sampleRows,
        i.first < 0x7FFFFFFFFFFFFFFF ∧ i.last < 0x7FFFFFFFFFFFFFFF := by decide
    exact fun i hi => ⟨(hbound i hi).1, (hbound i hi).2⟩
  have hcount : Countable sampleUptimes.tables.intervals sampleRows := by
    refine ⟨fun s hs _ => ?_, fun next h => ?_⟩
    · cases hs
      decide
    cases h
    refine ⟨fun s hs _ => ?_, fun next h => ?_⟩
    · cases hs
      decide
    cases h
    refine ⟨fun s hs _ => ?_, fun next _ => trivial⟩
    cases hs
    decide
  have hmerged : mergedAll sampleUptimes.tables.intervals sampleRows =
      .ok [⟨"0xa", 1, 30, 22⟩, ⟨"0xb", 12, 20, 8⟩] := by cbv
  have hok : (Commit.intervals "uptimes" sampleRows 30 sampleUptimes).1 = .ok () := by cbv
  obtain ⟨table, htable, -, -, hcommit, -⟩ := intervals_merged "uptimes" 30 sampleUptimes hlow hcount
  rw [hmerged] at htable
  cases htable
  exact ⟨hmerged, hok, hcommit hok⟩

end StakeTrail.Uptime
