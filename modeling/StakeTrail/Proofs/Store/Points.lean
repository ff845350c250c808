import Mathlib
import StakeTrail.Proofs.Checkpoints.Calls
import StakeTrail.Proofs.Store.Atomic

/-!
# Checkpoints in the database

The table of checkpoints and the list in memory hold the same rows in the same order, and every call leaves them so
(`tabled_eq`): the statement that moves a checkpoint tells nothing where the checkpoint is not below the new height, and
the question that follows it tells whether the checkpoint is there at all.

**The main statement** (`database_refines_memory`): over any calls, with heights that a query hands back unchanged, a
database and a list that both start without checkpoints reply alike, and both reply as the calls before say.
-/

namespace StakeTrail.Store

open StakeTrail.Action Database Checkpoints

/-! ## Calls on the tables -/

/-- The calls on tables, where no statement is refused. -/
def tabled : Checkpoints Tables where
  setup name := update fun t => { t with checkpoints := Keyed.keep Checkpoint.indexer ⟨name, 0⟩ t.checkpoints }
  load name := stated fun t => ((t.checkpoint? name).map fun c => Word.readBack c.height, t)
  advance := movedCheckpoint
  list := stated fun t =>
    ((t.checkpoints.map fun c => ⟨c.indexer, Word.readBack c.height⟩).mergeSort Checkpoint.inOrder, t)

theorem call_mirrors (c : Call) : Mirrors (checkpoints.call c) (tabled.call c) := by
  cases c with
  | setup name =>
    simp only [call, checkpoints, tabled]
    exact (Mirrors.write _).bind fun _ => .pure _
  | load name =>
    simp only [call, checkpoints, tabled]
    exact (Mirrors.query _).bind fun _ => .pure _
  | advance name height =>
    have hcontact : Mirrors contact (pure () : Action Tables Unit) := .query _
    have hadvance := hcontact.bind fun _ => advanceCheckpoint_mirrors name height
    rw [pure_bind] at hadvance
    simp only [call, checkpoints, tabled]
    exact hadvance.bind fun _ => .pure _
  | list =>
    simp only [call, checkpoints, tabled]
    exact (Mirrors.query _).bind fun _ => .pure _

/-! ## The table and the list -/

/-- Checkpoints that a query hands back unchanged, each name once. -/
structure Plain (points : List Checkpoint) : Prop where
  nodup : (points.map Checkpoint.indexer).Nodup
  low : ∀ c ∈ points, c.height < 0x80000000

/-- A call whose height a query would hand back unchanged. -/
def Call.Low : Call → Prop
  | .advance _ height => height < 0x80000000
  | _ => True

variable {points : List Checkpoint} {t : Tables}

theorem Plain.put (h : Plain points) (name : String) {height : Nat} (hheight : height < 0x80000000) :
    Plain (Keyed.put Checkpoint.indexer ⟨name, height⟩ points) where
  nodup := Keyed.nodup_put _ h.nodup
  low c hc := by
    rcases Keyed.mem_put hc with rfl | hc
    · exact hheight
    · exact h.low c hc

theorem Plain.keep (h : Plain points) (name : String) :
    Plain (Keyed.keep Checkpoint.indexer ⟨name, 0⟩ points) where
  nodup := Keyed.nodup_keep _ h.nodup
  low := by
    unfold Keyed.keep
    split
    · exact h.low
    · rename_i hnone
      rw [← Keyed.put_of_none hnone]
      exact (h.put name (by decide)).low

theorem Plain.readBack (h : Plain points) :
    points.map (fun c => (⟨c.indexer, Word.readBack c.height⟩ : Checkpoint)) = points := by
  refine Keyed.map_eq_self fun c hc => ?_
  rw [Word.readBack_of_lt (h.low c hc)]

/-- **Moving a checkpoint in place** writes the greater of the two heights over it. -/
theorem Plain.advance_eq (h : Plain points) {name : String} {height : Nat} (hheight : height < 0x80000000)
    {b : Checkpoint} (hb : Keyed.get? Checkpoint.indexer name points = some b) :
    points.map (fun c => if c.indexer = name ∧ before c.height height then ⟨name, height⟩ else c) =
      Keyed.put Checkpoint.indexer ⟨name, max b.height height⟩ points := by
  obtain ⟨hnodup, hlow⟩ := h
  induction points with
  | nil => cases hb
  | cons c rest ih =>
    obtain ⟨hfirst, hrest⟩ := List.nodup_cons.mp (List.map_cons ▸ hnodup)
    have hc : c.height < 0x80000000 := hlow c List.mem_cons_self
    have hbefore : before c.height height = true ↔ c.height < height := before_iff hc hheight
    by_cases hname : c.indexer = name
    · -- the checkpoints after this one have other names
      have hsame : rest.map (fun c => if c.indexer = name ∧ before c.height height then ⟨name, height⟩ else c) = rest := by
        refine Keyed.map_eq_self fun d hd => if_neg fun hd' => hfirst ?_
        exact List.mem_map.mpr ⟨d, hd, hd'.1.trans hname.symm⟩
      simp only [Keyed.get?, hname, if_true, Option.some.injEq] at hb
      subst hb
      simp only [List.map_cons, hsame, Keyed.put, hname, if_true, true_and, hbefore, List.cons.injEq, and_true]
      split
      · rw [Nat.max_eq_right (by omega)]
      · rw [Nat.max_eq_left (by omega), ← hname]
    · simp only [Keyed.get?, hname, if_false] at hb
      simp only [List.map_cons, Keyed.put, hname, false_and, if_false,
        ih hb hrest fun d hd => hlow d (List.mem_cons_of_mem _ hd)]

/-- A checkpoint that is not there is not moved. -/
theorem advance_of_none {name : String} (height : Nat) (h : t.checkpoint? name = none) : t.advance name height = t := by
  have hsame : t.checkpoints.map (fun c => if c.indexer = name ∧ before c.height height then ⟨name, height⟩ else c) =
      t.checkpoints :=
    Keyed.map_eq_self fun c hc => if_neg fun hc' => Keyed.get?_eq_none.mp h c hc hc'.1
  rw [Tables.advance, hsame]

/-- **One call** replies as the list does, and does to the table what it does to the list. -/
theorem tabled_eq (h : Plain t.checkpoints) {c : Call} (hc : Call.Low c) :
    tabled.call c t = ((Checkpoint.memory.call c t.checkpoints).1,
      { t with checkpoints := (Checkpoint.memory.call c t.checkpoints).2 }) := by
  cases c with
  | setup name =>
    rw [memory_setup, call, bind_apply]
    simp only [tabled, update_apply, pure_apply]
  | load name =>
    have hload : (t.checkpoint? name).map (fun c => Word.readBack c.height) =
        (Keyed.get? Checkpoint.indexer name t.checkpoints).map Checkpoint.height := by
      unfold Tables.checkpoint?
      rcases hg : Keyed.get? Checkpoint.indexer name t.checkpoints with _ | b
      · rw [Option.map_none, Option.map_none]
      · have hb := h.low b (Keyed.mem_of_get? hg)
        simp only [Option.map_some, Word.readBack_of_lt hb]
    rw [memory_load, call, bind_apply]
    simp only [tabled, stated, hload, pure_apply]
  | advance name height =>
    rw [call, bind_apply]
    simp only [tabled, movedCheckpoint_apply]
    rcases hg : Keyed.get? Checkpoint.indexer name t.checkpoints with _ | b
    · rw [memory_advance_none height hg, advance_of_none height hg, Tables.checkpoint?, hg]
      rfl
    · rw [memory_advance_some height hg, Tables.advance, h.advance_eq hc hg, Tables.checkpoint?, hg]
      rfl
  | list =>
    rw [memory_list, call, bind_apply]
    simp only [tabled, stated, h.readBack, pure_apply]

/-- Calls with low heights leave low heights. -/
theorem Plain.call (h : Plain points) {c : Call} (hc : Call.Low c) : Plain (Checkpoint.memory.call c points).2 := by
  cases c with
  | setup name =>
    rw [memory_setup]
    exact h.keep name
  | load name =>
    rw [memory_load]
    exact h
  | advance name height =>
    rcases hg : Keyed.get? Checkpoint.indexer name points with _ | b
    · rw [memory_advance_none height hg]
      exact h
    · rw [memory_advance_some height hg]
      exact h.put name (Nat.max_lt.mpr ⟨h.low b (Keyed.mem_of_get? hg), hc⟩)
  | list =>
    rw [memory_list]
    exact h

/-! ## Any calls -/

/-- A database that refuses no statement replies as the list of its checkpoints does. -/
theorem replies_eq {d : Database} (hhealthy : ∀ n, d.refusal n = none) (h : Plain d.tables.checkpoints) {calls : List Call}
    (hlow : ∀ c ∈ calls, Call.Low c) :
    checkpoints.replies d calls = Checkpoint.memory.replies d.tables.checkpoints calls := by
  induction calls generalizing d with
  | nil => rfl
  | cons c rest ih =>
    have hmirrors := call_mirrors c
    obtain ⟨-, hreply, htables⟩ := (hmirrors.outcome d).resolve_right fun hquiet => hquiet.1 fun n _ _ => hhealthy n
    have hc := hlow c List.mem_cons_self
    rw [tabled_eq h hc] at hreply htables
    have hhealthy' : ∀ n, (checkpoints.call c d).2.refusal n = none := by
      rw [hmirrors.refusal d]
      exact hhealthy
    have hpoints : (checkpoints.call c d).2.tables.checkpoints = (Checkpoint.memory.call c d.tables.checkpoints).2 := by
      rw [htables]
    rw [Checkpoints.replies, Checkpoints.replies, hreply,
      ih hhealthy' (hpoints ▸ h.call hc) fun c' hc' => hlow c' (List.mem_cons_of_mem _ hc'), hpoints]

/-- **The database keeps checkpoints as the list in memory does.** Over any calls, with any names and heights below
0x80000000, a database without checkpoints that refuses no statement and an empty list reply alike: with the greatest
height since the first setting up, with a missing checkpoint just where there is none, and with the checkpoints in the
order of their names' bytes. Setting up lowers no height. -/
theorem database_refines_memory {d : Database} (hempty : d.tables.checkpoints = [])
    (hhealthy : ∀ n, d.refusal n = none) {calls : List Call} (hlow : ∀ c ∈ calls, Call.Low c) :
    checkpoints.replies d calls = Checkpoint.memory.replies [] calls ∧
    (∀ past c rest, calls = past ++ c :: rest →
      ∃ reply, (checkpoints.replies d calls)[past.length]? = some reply ∧ Due past c reply) ∧
    ∀ past name other height, heightAfter past other = some height →
      heightAfter (past ++ [.setup name]) other = some height := by
  have hplain : Plain d.tables.checkpoints := by
    rw [hempty]
    exact ⟨List.nodup_nil, by simp⟩
  have hsame := replies_eq hhealthy hplain hlow
  rw [hempty] at hsame
  refine ⟨hsame, ?_, fun past name other height h => heightAfter_setup h name⟩
  rintro past c rest rfl
  rw [hsame]
  exact memory_replies .nil past c rest

/-! ### Two indexers -/

/-- Checkpoints are moved before and after they are set up, back, and set up once more. -/
def sampleCalls : List Call := [
  .advance "uptime" 4, .setup "uptime", .setup "Votes", .advance "uptime" 9, .advance "uptime" 2, .setup "uptime",
  .load "uptime", .load "reward", .advance "reward" 1, .list]

/-- The early height is lost, the later one stays, and capitals come first. -/
theorem sampleCalls_replies : checkpoints.replies {} sampleCalls = [
    .error (.checkpointMissing "uptime"), .ok .done, .ok .done, .ok .done, .ok .done, .ok .done, .ok (.height (some 9)),
    .ok (.height none), .error (.checkpointMissing "reward"), .ok (.points [⟨"Votes", 0⟩, ⟨"uptime", 9⟩])] := by
  have hlow : ∀ c ∈ sampleCalls, Call.Low c := by
    simp [sampleCalls, Call.Low]
  rw [(database_refines_memory rfl (fun _ => rfl) hlow).1]
  cbv

end StakeTrail.Store
