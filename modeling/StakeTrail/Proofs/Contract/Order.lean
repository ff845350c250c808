import Mathlib
import StakeTrail.Proofs.Contract.Canonical
import StakeTrail.Proofs.Contract.Rows

/-!
# The order of the rows of contract logs

Logs are decoded up to the first that cannot be (`rowsOfLogs_eq_error`). The rows of logs that all decode are
`Arranged`: they are the rows of the logs, in order of block and index, and the rows of one position stay in the order
of the logs (`rowsOfLogs_eq_ok`). Rows at distinct positions can be arranged in one way only (`Arranged.unique`), so
that the order in which such logs are delivered does not matter.
-/

namespace StakeTrail.Contract

open Staking

variable {log : LogRecord} {logs logs' : List LogRecord} {rows rows' found found' : List ExecutionEvent}

/-- Where in the chain a log stands: its block, and its index there. -/
def positionOf (log : LogRecord) : Nat × Nat := (log.block, log.index)

/-- Where in the chain the log of a row stands. -/
def rowPosition (r : ExecutionEvent) : Nat × Nat := (r.block, r.index)

theorem row?_position {r : ExecutionEvent} (h : row? log = some r) : rowPosition r = positionOf log := by
  obtain ⟨hplace, hblock⟩ := rowOfLog_place (row?_eq_some.mp h)
  have hindex : r.index = log.index := congrArg Prod.snd hplace
  rw [rowPosition, positionOf, hblock, hindex]

/-! ## Rows in order of their positions -/

theorem inOrder_iff {a b : ExecutionEvent} : inOrder a b = true ↔ toLex (rowPosition a) ≤ toLex (rowPosition b) := by
  simp [inOrder, rowPosition, Prod.Lex.toLex_le_toLex]

theorem inOrder_trans (a b c : ExecutionEvent) (hab : inOrder a b = true) (hbc : inOrder b c = true) :
    inOrder a c = true := by
  rw [inOrder_iff] at *
  exact hab.trans hbc

theorem inOrder_total (a b : ExecutionEvent) : (inOrder a b || inOrder b a) = true := by
  rw [Bool.or_eq_true, inOrder_iff, inOrder_iff]
  exact le_total _ _

/-- These are the rows that were found, in order of their positions; rows of one position stay as they were found. -/
structure Arranged (rows found : List ExecutionEvent) : Prop where
  perm : rows.Perm found
  ascends : rows.Pairwise fun a b => toLex (rowPosition a) ≤ toLex (rowPosition b)
  stable : ∀ position, (rows.filter fun r => rowPosition r = position) = found.filter fun r => rowPosition r = position

theorem arranged_mergeSort (found : List ExecutionEvent) : Arranged (found.mergeSort inOrder) found where
  perm := List.mergeSort_perm found inOrder
  ascends := (List.pairwise_mergeSort inOrder_trans inOrder_total found).imp inOrder_iff.mp
  stable position := by
    -- the rows of one position are in order as they were found, so that sorting leaves them
    have hkept : ((found.filter fun r => rowPosition r = position).Pairwise fun a b => inOrder a b = true) := by
      rw [List.pairwise_filter]
      refine List.pairwise_of_forall fun a b => ?_
      intro ha hb
      rw [decide_eq_true_eq] at ha hb
      rw [inOrder_iff, ha, hb]
    have hsub := List.sublist_mergeSort inOrder_trans inOrder_total hkept List.filter_sublist
    have hfilter := hsub.filter fun r => rowPosition r = position
    rw [List.filter_filter] at hfilter
    simp only [Bool.and_self] at hfilter
    refine (hfilter.eq_of_length ?_).symm
    exact ((List.mergeSort_perm found inOrder).filter _).length_eq.symm

/-- **Rows at distinct positions can be arranged in one way only**, in whatever order they were found. -/
theorem Arranged.unique (h : Arranged rows found) (h' : Arranged rows' found') (hp : found'.Perm found)
    (hd : (found.map rowPosition).Nodup) : rows' = rows := by
  have hperm : rows'.Perm rows := (h'.perm.trans hp).trans h.perm.symm
  refine hperm.eq_of_pairwise (fun a b ha hb hab hba => ?_) h'.ascends h.ascends
  have hsame : rowPosition a = rowPosition b := toLex.injective (le_antisymm hab hba)
  exact List.inj_on_of_nodup_map hd (hp.mem_iff.mp (h'.perm.mem_iff.mp ha)) (h.perm.mem_iff.mp hb) hsame

/-! ## The rows of logs -/

/-- **The first log that cannot be decoded** ends it with its fault. -/
theorem rowsOfLogs_eq_error {e : Fault} : rowsOfLogs logs = .error e ↔
    ∃ front log back, logs = front ++ log :: back ∧ (∀ l ∈ front, Decodes l) ∧ rowOfLog log = .error e := by
  refine Iff.trans ?_ Traversal.readAll_eq_error
  rw [← rowsOfEach_eq_readAll, rowsOfLogs]
  rcases rowsOfEach logs with e' | found <;> simp [bind, Except.bind]

/-- **The rows of logs that can all be decoded.** -/
theorem rowsOfLogs_eq_ok (h : ∀ log ∈ logs, Decodes log) :
    ∃ rows, rowsOfLogs logs = .ok rows ∧ Arranged rows (logs.filterMap row?) := by
  obtain ⟨found, hfound⟩ := Traversal.exists_readAll_eq_ok.mpr h
  rw [← rowsOfEach_eq_readAll] at hfound
  obtain ⟨-, rfl⟩ := rowsOfEach_eq hfound
  refine ⟨_, ?_, arranged_mergeSort _⟩
  rw [rowsOfLogs, hfound]
  rfl

/-- Logs at distinct positions have rows at distinct positions. -/
theorem nodup_positions (h : (logs.map positionOf).Nodup) : ((logs.filterMap row?).map rowPosition).Nodup :=
  nodup_rows_of (fun _ _ => row?_position) h

/-- **Rows are neither lost nor dependent on the order of delivery.** Decoding fails just with the fault of the first
log that cannot be decoded. If there is none, the rows of all logs are given, arranged by block and index; and if no two
logs share block and index, they are given alike in whatever order the logs come. -/
theorem rowsOfLogs_settled (logs : List LogRecord) :
    (∀ e, rowsOfLogs logs = .error e ↔
      ∃ front log back, logs = front ++ log :: back ∧ (∀ l ∈ front, Decodes l) ∧ rowOfLog log = .error e) ∧
    ((∀ log ∈ logs, Decodes log) →
      (∃ rows, rowsOfLogs logs = .ok rows ∧ Arranged rows (logs.filterMap row?)) ∧
      ((logs.map positionOf).Nodup →
        ∀ logs' : List LogRecord, logs'.Perm logs → rowsOfLogs logs' = rowsOfLogs logs)) := by
  refine ⟨fun e => rowsOfLogs_eq_error, fun hall => ⟨rowsOfLogs_eq_ok hall, fun hd logs' hp => ?_⟩⟩
  obtain ⟨rows, hrows, harranged⟩ := rowsOfLogs_eq_ok hall
  obtain ⟨rows', hrows', harranged'⟩ := rowsOfLogs_eq_ok fun log hlog => hall log (hp.mem_iff.mp hlog)
  rw [hrows, hrows', harranged.unique harranged' (hp.filterMap row?) (nodup_positions hd)]

/-! ### Logs that come in reverse -/

/-- The address `0xaa…` unsets its operator. -/
def sampleUnset : Notice := .unsetOperator (List.replicate 20 0xaa)

/-- It does so in two blocks, of which the later comes first; the log of an abandoned block stands between them. -/
def reversedLogs : List LogRecord :=
  [logOf sampleUnset 8 0 "0x02", { logOf sampleUnset 7 2 "0x03" with removed := true }, logOf sampleUnset 7 1 "0x01"]

theorem rowOfLog_sampleUnset (block index : Nat) (txHash : String) :
    rowOfLog (logOf sampleUnset block index txHash) = .ok (some (rowFor (logOf sampleUnset block index txHash)
      { kind := .unsetOperator, address := Address.ofBytes (List.replicate 20 0xaa) })) := by
  have hw : sampleUnset.Writable := ⟨by decide +kernel, by decide +kernel⟩
  rw [rowOfLog_carried (logOf_carries _ _ _ _) hw]
  rfl

/-- The two rows come in the order of the chain, whichever log comes first. -/
theorem reversedLogs_settled : ∃ rows, rowsOfLogs reversedLogs = .ok rows ∧ rowsOfLogs reversedLogs.reverse = .ok rows ∧
    rows.map rowPosition = [(7, 1), (8, 0)] := by
  have hall : ∀ log ∈ reversedLogs, Decodes log := by
    simp only [reversedLogs, List.forall_mem_cons, List.not_mem_nil, false_implies, implies_true, and_true]
    exact ⟨⟨_, rowOfLog_sampleUnset 8 0 "0x02"⟩, ⟨none, rfl⟩, ⟨_, rowOfLog_sampleUnset 7 1 "0x01"⟩⟩
  obtain ⟨⟨rows, hrows, harranged⟩, horder⟩ := (rowsOfLogs_settled reversedLogs).2 hall
  have hsame := horder (by decide) _ (List.reverse_perm reversedLogs)
  refine ⟨rows, hrows, hsame.trans hrows, ?_⟩
  have hfound : (reversedLogs.filterMap row?).map rowPosition = [(8, 0), (7, 1)] := by
    have hremoved : row? { logOf sampleUnset 7 2 "0x03" with removed := true } = none := rfl
    have hkept : ∀ block index txHash, row? (logOf sampleUnset block index txHash) = some _ :=
      fun _ _ _ => row?_eq_some.mpr (rowOfLog_sampleUnset _ _ _)
    rw [reversedLogs, List.filterMap_cons_some (hkept _ _ _), List.filterMap_cons_none hremoved,
      List.filterMap_cons_some (hkept _ _ _), List.filterMap_nil, List.map_cons, List.map_cons, List.map_nil]
    rfl
  have hperm := harranged.perm.map rowPosition
  rw [hfound] at hperm
  refine (hperm.trans (.swap _ _ _)).eq_of_pairwise (fun a b _ _ hab hba => ?_)
    (List.pairwise_map.mpr harranged.ascends) (by decide)
  exact toLex.injective (le_antisymm hab hba)

end StakeTrail.Contract
