import Mathlib
import StakeTrail.Contract.Log
import StakeTrail.Proofs.Traversal
import StakeTrail.Store.Tables

/-!
# The rows of contract logs

The row of a log keeps its transaction, its index and its block (`rowOfLog_place`). Logs that all decode have the rows of
each of them, in some order (`mem_rowsOfLogs`); where the logs have distinct places, so have their rows (`nodup_rows`).
-/

namespace StakeTrail.Contract

open Staking

variable {log : LogRecord} {logs : List LogRecord} {rows : List ExecutionEvent} {r : ExecutionEvent}

/-- The place of a log: its transaction, spelled as rows spell it, and its index. -/
def placeOf (log : LogRecord) : String × Nat := (Address.normalForm log.txHash, log.index)

/-- The row of a log; none where it is passed over or cannot be decoded. -/
def row? (log : LogRecord) : Option ExecutionEvent := ((rowOfLog log).toOption).join

/-- Whether a log can be decoded. -/
def Decodes (log : LogRecord) : Prop := ∃ row, rowOfLog log = .ok row

/-- **The row of a log keeps its place.** -/
theorem rowOfLog_place (h : rowOfLog log = .ok (some r)) :
    Store.executionEventKey r = placeOf log ∧ r.block = log.block := by
  unfold rowOfLog at h
  split at h
  · cases h
  rcases htopics : log.topics.mapM topicBytes with e | topics <;> simp only [htopics, bind, Except.bind] at h
  · cases h
  rcases topics with _ | ⟨topic, topics⟩ <;> simp only at h
  · cases h
  rcases hdata : dataBytes log.data with e | data <;> simp only [hdata] at h
  · cases h
  rcases ht : Topic.ofHash? topic with _ | t <;> simp only [ht] at h
  · cases h
  rcases hnotice : noticeOf t data with e | notice <;> simp only [hnotice] at h
  · cases h
  rcases haccount : notice.account with e | account <;> simp only [haccount] at h <;> cases h
  exact ⟨rfl, rfl⟩

theorem row?_eq_some : row? log = some r ↔ rowOfLog log = .ok (some r) := by
  unfold row?
  rcases rowOfLog log with e | row
  · simp [Except.toOption]
  · simp [Except.toOption]

theorem rowsOfEach_eq_readAll (logs : List LogRecord) : rowsOfEach logs = Traversal.readAll rowOfLog logs := by
  induction logs with
  | nil => rfl
  | cons log logs ih => rw [Traversal.readAll_cons, rowsOfEach, ih]

/-- **Logs are decoded one after the other**, and all of them have to be. -/
theorem rowsOfEach_eq (h : rowsOfEach logs = .ok rows) :
    (∀ log ∈ logs, Decodes log) ∧ rows = logs.filterMap row? := by
  rw [rowsOfEach_eq_readAll] at h
  exact ⟨Traversal.exists_readAll_eq_ok.mp ⟨_, h⟩, Traversal.readAll_eq_filterMap h⟩

/-- **The rows of logs**, all of which can be decoded. -/
theorem mem_rowsOfLogs (h : rowsOfLogs logs = .ok rows) :
    (∀ log ∈ logs, Decodes log) ∧ ∀ r, r ∈ rows ↔ ∃ log ∈ logs, row? log = some r := by
  unfold rowsOfLogs at h
  rcases hrows : rowsOfEach logs with e | unsorted <;> simp only [hrows, bind, Except.bind] at h <;> cases h
  obtain ⟨hall, rfl⟩ := rowsOfEach_eq hrows
  refine ⟨hall, fun r => ?_⟩
  rw [List.mem_mergeSort, List.mem_filterMap]

/-- What tells logs apart, and is kept by their rows, tells the rows apart. -/
theorem nodup_rows_of {κ : Type} {ofRow : ExecutionEvent → κ} {ofLog : LogRecord → κ}
    (hkept : ∀ log r, row? log = some r → ofRow r = ofLog log) (h : (logs.map ofLog).Nodup) :
    ((logs.filterMap row?).map ofRow).Nodup := by
  refine List.pairwise_map.mpr (List.pairwise_filterMap.mpr ((List.pairwise_map.mp h).imp ?_))
  intro a b hne r hr s hs heq
  refine hne ?_
  rw [← hkept a r hr, ← hkept b s hs, heq]

/-- Logs at distinct places have rows at distinct places. -/
theorem nodup_rows (h : (logs.map placeOf).Nodup) : ((logs.filterMap row?).map Store.executionEventKey).Nodup :=
  nodup_rows_of (fun _ _ hr => (rowOfLog_place (row?_eq_some.mp hr)).1) h

end StakeTrail.Contract
