import Mathlib
import StakeTrail.Checkpoint
import StakeTrail.Proofs.Text.Order

/-!
# Calls to a store of checkpoints

A `Call` names a request to a store, and `replies` are the outcomes of calls that are made in turn. What they have to be is
said by the calls alone (`Due`): the height of a checkpoint is the greatest that it was moved to since it was first set up
(`heightAfter`), it is missed as long as it has none, and the checkpoints are listed in the order of their names' bytes.

The store that keeps its checkpoints in a list replies so (`memory_due`).
-/

namespace StakeTrail

/-! ## Rows that are kept -/

namespace Keyed

variable {α κ : Type} [DecidableEq κ] {key : α → κ}

/-- A row that is kept is found unless there was one. -/
theorem get?_keep_eq (a : α) (k : κ) (table : List α) :
    get? key k (keep key a table) = if key a = k then some ((get? key k table).getD a) else get? key k table := by
  by_cases hk : key a = k
  · rw [if_pos hk, ← hk, get?_keep]
  · rw [if_neg hk]
    unfold keep
    rcases hg : get? key (key a) table with _ | b
    · rw [← put_of_none hg, get?_put, if_neg hk]
    · rfl

theorem nodup_keep (a : α) {table : List α} (h : (table.map key).Nodup) : ((keep key a table).map key).Nodup := by
  unfold keep
  rcases hg : get? key (key a) table with _ | b
  · rw [← put_of_none hg]
    exact nodup_put a h
  · exact h

end Keyed

namespace Checkpoints

/-! ## Calls and replies -/

/-- A request to a store of checkpoints. -/
inductive Call
  | setup (name : String)
  | load (name : String)
  | advance (name : String) (height : Nat)
  | list
  deriving DecidableEq, Repr

/-- What a store replies with. -/
inductive Reply
  | done
  | height (found : Option Nat)
  | points (all : List Checkpoint)
  deriving DecidableEq, Repr

variable {σ : Type}

/-- Makes a call. -/
def call (store : Checkpoints σ) : Call → Action σ Reply
  | .setup name => do
    store.setup name
    pure .done
  | .load name => do
    let found ← store.load name
    pure (.height found)
  | .advance name height => do
    store.advance name height
    pure .done
  | .list => do
    let all ← store.list
    pure (.points all)

/-- The outcomes of calls that are made in turn, whether or not the calls before them failed. -/
def replies (store : Checkpoints σ) : σ → List Call → List (Except Fault Reply)
  | _, [] => []
  | s, c :: rest => (store.call c s).1 :: replies store (store.call c s).2 rest

/-! ## What the calls say -/

/-- The calls since a checkpoint was first set up; none if it never was. -/
def since? (name : String) : List Call → Option (List Call)
  | [] => none
  | c :: rest => if c = .setup name then some rest else since? name rest

/-- The height to which a call moves a checkpoint. -/
def Call.moves? (name : String) : Call → Option Nat
  | .advance other height => if other = name then some height else none
  | _ => none

/-- **The height of a checkpoint after calls**: the greatest that it was moved to since it was first set up. -/
def heightAfter (past : List Call) (name : String) : Option Nat :=
  (since? name past).map fun calls => (calls.filterMap (Call.moves? name)).foldl max 0

/-- **What a call has to reply** after the calls before it. -/
inductive Due (past : List Call) : Call → Except Fault Reply → Prop
  | setup (name : String) : Due past (.setup name) (.ok .done)
  | load (name : String) : Due past (.load name) (.ok (.height (heightAfter past name)))
  | moved {name : String} (height : Nat) : heightAfter past name ≠ none → Due past (.advance name height) (.ok .done)
  | missed {name : String} (height : Nat) : heightAfter past name = none →
    Due past (.advance name height) (.error (.checkpointMissing name))
  | list {all : List Checkpoint} : all.Pairwise (fun a b => Text.Hex.utf8 a.indexer < Text.Hex.utf8 b.indexer) →
    (∀ c, c ∈ all ↔ heightAfter past c.indexer = some c.height) → Due past .list (.ok (.points all))

variable {past : List Call} {c : Call} {name : String}

theorem since?_concat (name : String) (past : List Call) (c : Call) :
    since? name (past ++ [c]) =
      ((since? name past).map (· ++ [c])).or (if c = .setup name then some [] else none) := by
  induction past with
  | nil => simp [since?]
  | cons first rest ih =>
    rw [List.cons_append, since?, since?]
    split
    · rfl
    · exact ih

/-- **What one more call does to a height.** -/
theorem heightAfter_concat (past : List Call) (c : Call) (name : String) :
    heightAfter (past ++ [c]) name = ((heightAfter past name).map fun h => max h ((c.moves? name).getD 0)).or
      (if c = .setup name then some 0 else none) := by
  unfold heightAfter
  rw [since?_concat]
  rcases since? name past with _ | calls
  · split <;> rfl
  · rcases hm : c.moves? name with _ | h <;> simp [hm, List.foldl_append]

/-- Setting a checkpoint up once more, or another one, moves none. -/
theorem heightAfter_setup {other : String} {height : Nat} (h : heightAfter past other = some height) (name : String) :
    heightAfter (past ++ [.setup name]) other = some height := by
  rw [heightAfter_concat, h]
  simp [Call.moves?]

/-! ## Checkpoints in a list -/

/-- The checkpoints in a list are those that the calls set up, at their heights. -/
structure Recalls (past : List Call) (points : List Checkpoint) : Prop where
  nodup : (points.map Checkpoint.indexer).Nodup
  height : ∀ name, (Keyed.get? Checkpoint.indexer name points).map Checkpoint.height = heightAfter past name

variable {points : List Checkpoint}

theorem Recalls.nil : Recalls [] [] where
  nodup := List.nodup_nil
  height _ := rfl

theorem Recalls.mem_iff (h : Recalls past points) {c : Checkpoint} :
    c ∈ points ↔ heightAfter past c.indexer = some c.height := by
  rw [← h.height, Option.map_eq_some_iff]
  constructor
  · intro hc
    exact ⟨c, (Keyed.get?_iff h.nodup).mpr ⟨hc, rfl⟩, rfl⟩
  · rintro ⟨b, hb, hheight⟩
    have hbc : b = c := by
      obtain ⟨indexer, height⟩ := b
      obtain rfl : indexer = c.indexer := Keyed.key_of_get? hb
      obtain rfl : height = c.height := hheight
      rfl
    exact hbc ▸ Keyed.mem_of_get? hb

/-- Checkpoints that hold each name once are listed in the order of the names' bytes. -/
theorem pairwise_inOrder (h : (points.map Checkpoint.indexer).Nodup) :
    (points.mergeSort Checkpoint.inOrder).Pairwise fun a b => Text.Hex.utf8 a.indexer < Text.Hex.utf8 b.indexer := by
  have hsorted : (points.mergeSort Checkpoint.inOrder).Pairwise fun a b => Checkpoint.inOrder a b = true := by
    apply List.pairwise_mergeSort
    · intro a b c hab hbc
      simp only [Checkpoint.inOrder, decide_eq_true_eq] at *
      exact le_trans hab hbc
    · intro a b
      simpa [Checkpoint.inOrder] using le_total a.indexer b.indexer
  have hdistinct : (points.mergeSort Checkpoint.inOrder).Pairwise fun a b => a.indexer ≠ b.indexer := by
    rw [← List.pairwise_map, ← List.nodup_iff_pairwise_ne]
    exact ((List.mergeSort_perm points Checkpoint.inOrder).map Checkpoint.indexer).nodup_iff.mpr h
  refine (hsorted.and hdistinct).imp fun ⟨hle, hne⟩ => Text.utf8_lt_iff.mpr ?_
  exact lt_of_le_of_ne (of_decide_eq_true hle) hne

theorem memory_setup (name : String) : Checkpoint.memory.call (.setup name) points =
    (.ok .done, Keyed.keep Checkpoint.indexer ⟨name, 0⟩ points) := rfl

theorem memory_load (name : String) : Checkpoint.memory.call (.load name) points =
    (.ok (.height ((Keyed.get? Checkpoint.indexer name points).map Checkpoint.height)), points) := rfl

theorem memory_list : Checkpoint.memory.call .list points =
    (.ok (.points (points.mergeSort Checkpoint.inOrder)), points) := rfl

theorem memory_advance_none (height : Nat) (h : Keyed.get? Checkpoint.indexer name points = none) :
    Checkpoint.memory.call (.advance name height) points = (.error (.checkpointMissing name), points) := by
  rw [call, Action.bind_apply]
  simp only [Checkpoint.memory, h]

theorem memory_advance_some (height : Nat) {b : Checkpoint} (h : Keyed.get? Checkpoint.indexer name points = some b) :
    Checkpoint.memory.call (.advance name height) points =
      (.ok .done, Keyed.put Checkpoint.indexer ⟨name, max b.height height⟩ points) := by
  rw [call, Action.bind_apply]
  simp only [Checkpoint.memory, h, Action.pure_apply]

/-- **One call**: the reply is due, and the checkpoints are those of the calls so far. -/
theorem memory_due (h : Recalls past points) (c : Call) :
    Due past c (Checkpoint.memory.call c points).1 ∧ Recalls (past ++ [c]) (Checkpoint.memory.call c points).2 := by
  cases c with
  | setup name =>
    rw [memory_setup]
    refine ⟨.setup name, Keyed.nodup_keep _ h.nodup, fun other => ?_⟩
    rw [heightAfter_concat, ← h.height, Keyed.get?_keep_eq]
    rcases Keyed.get? Checkpoint.indexer other points with _ | b <;> by_cases hname : name = other <;>
      simp [Call.moves?, hname]
  | load name =>
    rw [memory_load]
    refine ⟨h.height name ▸ .load name, h.nodup, fun other => ?_⟩
    rw [heightAfter_concat, ← h.height]
    rcases Keyed.get? Checkpoint.indexer other points with _ | b <;> simp [Call.moves?]
  | advance name height =>
    have hname := h.height name
    rcases hg : Keyed.get? Checkpoint.indexer name points with _ | b <;> rw [hg] at hname
    · rw [memory_advance_none height hg]
      refine ⟨.missed height hname.symm, h.nodup, fun other => ?_⟩
      rw [heightAfter_concat, ← h.height]
      rcases hother : Keyed.get? Checkpoint.indexer other points with _ | b
      · simp
      · have hne : name ≠ other := by
          rintro rfl
          rw [hg] at hother
          cases hother
        simp [Call.moves?, hne]
    · rw [memory_advance_some height hg]
      refine ⟨.moved height (by simp [← hname]), Keyed.nodup_put _ h.nodup, fun other => ?_⟩
      rw [heightAfter_concat, ← h.height, Keyed.get?_put]
      by_cases hne : name = other
      · subst hne
        simp [Call.moves?, hg]
      · rcases Keyed.get? Checkpoint.indexer other points with _ | b <;> simp [Call.moves?, hne]
  | list =>
    rw [memory_list]
    refine ⟨.list (pairwise_inOrder h.nodup) fun c => ?_, h.nodup, fun other => ?_⟩
    · rw [List.mem_mergeSort, h.mem_iff]
    · rw [heightAfter_concat, ← h.height]
      rcases Keyed.get? Checkpoint.indexer other points with _ | b <;> simp [Call.moves?]

/-- The replies to the calls that come after those of the past. -/
theorem memory_replies (h : Recalls past points) (middle : List Call) (c : Call) (rest : List Call) :
    ∃ reply, (Checkpoint.memory.replies points (middle ++ c :: rest))[middle.length]? = some reply ∧
      Due (past ++ middle) c reply := by
  induction middle generalizing past points with
  | nil =>
    rw [List.append_nil]
    exact ⟨_, rfl, (memory_due h c).1⟩
  | cons first middle ih =>
    obtain ⟨reply, hreply, hdue⟩ := ih (memory_due h first).2
    rw [List.append_assoc, List.singleton_append] at hdue
    exact ⟨reply, hreply, hdue⟩

end Checkpoints

end StakeTrail
