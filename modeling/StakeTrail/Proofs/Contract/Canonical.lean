import Mathlib
import StakeTrail.Contract.Log
import StakeTrail.Proofs.Abi.RoundTrip
import StakeTrail.Proofs.Contract.Topics
import StakeTrail.Proofs.Text.Spelling

/-!
# Logs that carry a notice

The contract reports a notice by a log with one topic, the digest of the event, and the encoded parameters as data. Both
are hexadecimal text, with or without `0x` and in any letter case (`LogRecord.Carries`). Such a log is decoded to the
account of its notice, at the place of the log (`rowOfLog_carried`).
-/

namespace StakeTrail

open Staking Text

/-- A log carries a notice: its one topic and its data spell what the contract writes. -/
structure LogRecord.Carries (log : LogRecord) (n : Contract.Notice) : Prop where
  kept : log.removed = false
  topic : ∃ text, log.topics = [text] ∧ Hex.SpellsAfter ["", "0x", "0X"] n.topic.hash text.toList
  data : Hex.SpellsAfter ["", "0x"] n.encode log.data.toList

namespace Contract

/-! ## Notices -/

/-- A notice whose parameters belong to their types and whose data can be addressed. -/
structure Notice.Writable (n : Notice) : Prop where
  belongs : List.Forall₂ (fun v ty => v.belongs ty = true) n.values n.topic.types
  size : n.encode.length ≤ 2 ^ 256

theorem Topic.types_fit (t : Topic) : ∀ ty ∈ t.types, ty.fits = true := by cases t <;> decide

/-- **A notice is read back** from its data. -/
theorem Notice.Writable.decode?_encode {n : Notice} (h : n.Writable) : Notice.decode? n.topic n.encode = some n := by
  have hvalues : Abi.decode? n.topic.types n.encode = some n.values :=
    Abi.decode?_encode (Abi.typed_of_forall_belongs h.belongs n.topic.types_fit) h.size
  rw [Notice.decode?, hvalues, Option.bind_some, Notice.ofValues?_values]

/-! ## Logs -/

/-- The log that the contract writes for a notice. -/
def logOf (n : Notice) (block index : Nat) (txHash : String) : LogRecord where
  address := predeployed
  topics := [Address.ofBytes n.topic.hash]
  data := Address.ofBytes n.encode
  block := block
  txHash := txHash
  index := index
  removed := false

theorem logOf_carries (n : Notice) (block index : Nat) (txHash : String) : (logOf n block index txHash).Carries n where
  kept := rfl
  topic := ⟨_, rfl, Address.spellsAfter_ofBytes (by simp) _⟩
  data := Address.spellsAfter_ofBytes (by simp) _

theorem topicBytes_eq {text : String} {bytes : Bytes} (hs : Hex.SpellsAfter ["", "0x", "0X"] bytes text.toList)
    (hlength : bytes.length = 32) : topicBytes text = .ok bytes := by
  obtain ⟨start, hstart, digits, hdigits, htext⟩ := hs
  have hread : Hex.decode (String.ofList digits) = .ok bytes := hdigits.decode
  simp only [List.mem_cons, List.not_mem_nil, or_false] at hstart
  rcases hstart with rfl | rfl | rfl
  · have hlist : text.toList = digits := htext
    have hsame : text = String.ofList digits := by rw [← hlist, String.ofList_toList]
    unfold topicBytes
    split
    · rename_i rest hrest
      exact absurd (hlist.symm.trans hrest) (hdigits.ne_start rest).1
    · rename_i rest hrest
      exact absurd (hlist.symm.trans hrest) (hdigits.ne_start rest).2
    · simp only [hsame, hread, if_pos hlength]
  · have hlist : text.toList = '0' :: 'x' :: digits := htext
    simp only [topicBytes, hlist, hread, if_pos hlength]
  · have hlist : text.toList = '0' :: 'X' :: digits := htext
    simp only [topicBytes, hlist, hread, if_pos hlength]

theorem dataBytes_eq {text : String} {bytes : Bytes} (hs : Hex.SpellsAfter ["", "0x"] bytes text.toList) :
    dataBytes text = .ok bytes := by
  obtain ⟨digits, hdigits, hbare⟩ := Address.bare_eq hs
  unfold dataBytes
  rw [hbare, hdigits.decode]

/-- The row of a log that reports an account. -/
def rowFor (log : LogRecord) (account : Account) : ExecutionEvent where
  txHash := Address.normalForm log.txHash
  index := log.index
  block := log.block
  kind := account.kind
  address := account.address
  source := account.source
  target := account.target
  targetAddress := account.targetAddress

/-- **What a log is decoded to**, given what each step reads. -/
theorem rowOfLog_eq {log : LogRecord} {topic data : Bytes} {others : List Bytes} {t : Topic} {n : Notice}
    (hkept : log.removed = false) (htopics : log.topics.mapM topicBytes = .ok (topic :: others))
    (hdata : dataBytes log.data = .ok data) (ht : Topic.ofHash? topic = some t) (hn : noticeOf t data = .ok n) :
    rowOfLog log = n.account.map fun account => some (rowFor log account) := by
  unfold rowOfLog
  rw [hkept, if_neg (by decide)]
  simp only [htopics, hdata, ht, hn, bind, Except.bind]
  rcases n.account with e | account <;> rfl

/-- **A log that carries a notice is decoded to the account of the notice**, or fails where that fails. -/
theorem rowOfLog_carried {log : LogRecord} {n : Notice} (hc : log.Carries n) (hw : n.Writable) :
    rowOfLog log = n.account.map fun account => some (rowFor log account) := by
  obtain ⟨text, htopics, htopic⟩ := hc.topic
  have hread : log.topics.mapM topicBytes = .ok [n.topic.hash] := by
    rw [htopics, List.mapM_cons, topicBytes_eq htopic n.topic.length_hash]
    rfl
  have hnotice : noticeOf n.topic n.encode = .ok n := by
    rw [noticeOf, hw.decode?_encode]
  exact rowOfLog_eq hc.kept hread (dataBytes_eq hc.data) (Topic.ofHash?_eq_some.mpr rfl) hnotice

end Contract

end StakeTrail
