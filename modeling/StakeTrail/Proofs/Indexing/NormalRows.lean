import StakeTrail.Indexing.Catalog
import StakeTrail.Proofs.Contract.Canonical
import StakeTrail.Proofs.Contract.Rows
import StakeTrail.Proofs.Reward.Tally
import StakeTrail.Proofs.Staking.Agreement
import StakeTrail.Proofs.Staking.Rows
import StakeTrail.Proofs.Store.NormalTexts
import StakeTrail.Proofs.Uptime.Membership

/-!
# The texts of what is read

Whatever text the nodes deliver, each way from a record to a row leads through the normal form: the classifier and the
decoder bring the hash of a transaction into it, the accumulator the address of a withdrawal, and the owners of keys and
the addresses in a notice are written in it.
-/

namespace StakeTrail

open Address

/-- What comes of one computation after another comes of both. -/
theorem bind_eq_ok {α β : Type} {x : Except Fault α} {f : α → Except Fault β} {b : β} (h : x >>= f = .ok b) :
    ∃ a, x = .ok a ∧ f a = .ok b := by
  rcases x with e | a
  · cases h
  · exact ⟨a, rfl, h⟩

/-- **The owner of a key is normal.** -/
theorem Address.isNormal_ofKey {key : Bytes} {owner : String} (h : ofKey key = .ok owner) : IsNormal owner := by
  obtain ⟨bytes, -, rfl⟩ := ofKey_eq h
  exact isNormal_ofBytes bytes

/-- What holds of every answer holds of all that was gathered. -/
theorem Feed.gather_forall {α : Type} {fetch : Nat → Except Fault α} {P : α → Prop}
    (hP : ∀ h a, fetch h = .ok a → P a) {first last : Nat} {l : List α} (hl : gather first last fetch = .ok l) :
    ∀ a ∈ l, P a := by
  intro a ha
  have hmap : l.map P = (List.range' first (last + 1 - first)).map fun _ => True :=
    gather_map (fun h b hb => eq_true (hP h b hb)) hl
  have hmem : P a ∈ l.map P := List.mem_map_of_mem ha
  rw [hmap] at hmem
  obtain ⟨_, -, htrue⟩ := List.mem_map.mp hmem
  exact of_eq_true htrue.symm

/-! ## Logs -/

namespace Contract

variable {log : LogRecord} {logs : List LogRecord} {n : Notice} {a : Account}

/-- The texts of an account. -/
def Account.texts (a : Account) : List String := [a.address, a.source, a.target, a.targetAddress]

/-- **The account of a notice is normal.** -/
theorem Notice.account_normal (h : n.account = .ok a) : ∀ text ∈ a.texts, IsNormal text := by
  suffices htexts : IsNormal a.address ∧ IsNormal a.source ∧ IsNormal a.target ∧ IsNormal a.targetAddress by
    simpa [Account.texts] using htexts
  cases n with
  | setOperator | unsetOperator | setWithdrawalAddress | setRewardAddress | createValidator =>
    cases h
    simp only [isNormal_ofBytes, isNormal_empty, and_self]
  | updateValidatorCommission =>
    obtain ⟨owner, howner, h⟩ := bind_eq_ok h
    cases h
    exact ⟨isNormal_ofKey howner, isNormal_empty, isNormal_empty, isNormal_empty⟩
  | deposit | withdraw | unjail =>
    obtain ⟨owner, howner, h⟩ := bind_eq_ok h
    cases h
    exact ⟨isNormal_ofBytes _, isNormal_empty, isNormal_ofKey howner, isNormal_empty⟩
  | redelegate =>
    obtain ⟨source, hsource, h⟩ := bind_eq_ok h
    obtain ⟨target, htarget, h⟩ := bind_eq_ok h
    cases h
    exact ⟨isNormal_ofBytes _, isNormal_ofKey hsource, isNormal_ofKey htarget, isNormal_empty⟩

/-- The row of a log is that of the account of some notice. -/
theorem rowOfLog_account {r : Staking.ExecutionEvent} (h : rowOfLog log = .ok (some r)) :
    ∃ (notice : Notice) (account : Account), notice.account = .ok account ∧ r = rowFor log account := by
  unfold rowOfLog at h
  split at h
  · cases h
  obtain ⟨topics, -, h⟩ := bind_eq_ok h
  split at h
  · cases h
  obtain ⟨data, -, h⟩ := bind_eq_ok h
  split at h
  · cases h
  obtain ⟨notice, -, h⟩ := bind_eq_ok h
  obtain ⟨account, haccount, h⟩ := bind_eq_ok h
  cases h
  exact ⟨notice, account, haccount, rfl⟩

/-- **The rows of logs are normal.** -/
theorem rowsOfLogs_normal {rows : List Staking.ExecutionEvent} (h : rowsOfLogs logs = .ok rows) :
    ∀ r ∈ rows, ∀ text ∈ r.texts, IsNormal text := by
  intro r hr text htext
  obtain ⟨log, -, hrow⟩ := ((mem_rowsOfLogs h).2 r).mp hr
  obtain ⟨notice, account, haccount, rfl⟩ := rowOfLog_account (row?_eq_some.mp hrow)
  rcases List.mem_cons.mp htext with rfl | htext
  · exact isNormal_normalForm log.txHash
  · exact Notice.account_normal haccount text htext

end Contract

/-! ## Events -/

namespace Staking

variable {block : Nat}

theorem rowsFrom_normal : ∀ {events : List EventRecord} {index : Nat} {rows : List ConsensusEvent},
    rowsFrom block index events = .ok rows → ∀ r ∈ rows, IsNormal r.txHash
  | [], _, _, h => by
    cases h
    simp
  | event :: events, index, rows, h => by
    obtain ⟨row, others, hrow, hrest, rfl⟩ := rowsFrom_cons h
    intro r hr
    rcases List.mem_append.mp hr with hr | hr
    · rcases rowOfEvent_eq hrow with ⟨-, rfl⟩ | ⟨base, kind, -, -, rfl⟩
      · cases hr
      · rw [List.mem_singleton.mp hr]
        exact isNormal_normalForm _
    · exact rowsFrom_normal hrest r hr

/-- **The rows of heights are normal.** -/
theorem rowsOfHeights_normal : ∀ {lists : List (List EventRecord)} {height : Nat} {rows : List ConsensusEvent},
    Indexing.Consensus.rowsOfHeights height lists = .ok rows → ∀ r ∈ rows, IsNormal r.txHash
  | [], _, _, h => by
    cases h
    simp
  | events :: lists, height, rows, h => by
    unfold Indexing.Consensus.rowsOfHeights at h
    obtain ⟨here, hrows, h⟩ := bind_eq_ok h
    obtain ⟨others, hrest, h⟩ := bind_eq_ok h
    cases h
    intro r hr
    rcases List.mem_append.mp hr with hr | hr
    · exact rowsFrom_normal hrows r hr
    · exact rowsOfHeights_normal hrest r hr

end Staking

/-! ## Validators -/

namespace Uptime

open Indexing.Consensus

variable {set : ActiveSet} {tracker tracker' : Tracker}

/-- **The owners in an active set are normal.** -/
theorem ActiveSet.ofValidators_normal {validators : List Validator} (h : ActiveSet.ofValidators validators = .ok set) :
    ∀ p ∈ set, IsNormal p.2 := by
  intro p hp
  rcases ActiveSet.extendWith_mem h p hp with hnil | ⟨v, -, -, howner⟩
  · cases hnil
  · unfold Validator.owner? at howner
    rcases hk : Address.ofKey v.key with e | owner <;> rw [hk] at howner <;> cases howner
    exact isNormal_ofKey hk

/-- The intervals of a tracker have normal owners. -/
def Tracker.Normal (tracker : Tracker) : Prop := ∀ p ∈ tracker, IsNormal p.2.owner

theorem Tracker.Normal.put (h : tracker.Normal) {address : String} {entry : Interval} (he : IsNormal entry.owner) :
    Tracker.Normal (Keyed.put Prod.fst (address, entry) tracker) := by
  intro p hp
  rcases Keyed.mem_put hp with rfl | hp
  · exact he
  · exact h p hp

theorem Tracker.Normal.addSet (hset : ∀ p ∈ set, IsNormal p.2) (h : tracker.Normal) {height : Nat}
    (hadd : tracker.addSet height set = .ok tracker') : tracker'.Normal := by
  induction set generalizing tracker with
  | nil =>
    cases hadd
    exact h
  | cons p set ih =>
    obtain ⟨address, owner⟩ := p
    unfold Tracker.addSet at hadd
    rcases hextend : Tracker.extend height owner ((Keyed.get? Prod.fst address tracker).map (·.2)) with e | entry <;>
      simp only [hextend] at hadd
    · cases hadd
    have hentry : IsNormal entry.owner := by
      have howner : IsNormal owner := hset _ List.mem_cons_self
      rcases hfound : Keyed.get? Prod.fst address tracker with _ | found <;>
        rw [hfound] at hextend <;> unfold Tracker.extend at hextend
      · cases hextend
        exact howner
      · -- an entry that is continued has the owner that it had
        simp only [Option.map_some] at hextend
        obtain ⟨next, -, hextend⟩ := bind_eq_ok hextend
        split at hextend <;> cases hextend
        · exact h found (Keyed.mem_of_get? hfound)
        · exact howner
    exact ih (fun p hp => hset p (List.mem_cons_of_mem _ hp)) (h.put hentry) hadd

theorem Tracker.Normal.addCommit (h : tracker.Normal) (signatures : List Signature) :
    (tracker.addCommit signatures).Normal := by
  unfold Tracker.addCommit
  induction signatures generalizing tracker with
  | nil => exact h
  | cons s signatures ih =>
    rw [List.foldl_cons]
    apply ih
    split
    · split
      · rename_i address entry hfound
        exact h.put (h (address, entry) (Keyed.mem_of_get? hfound))
      · exact h
    · exact h

/-- What is asked for at a height has normal owners. -/
theorem evidence_normal {feed : ConsensusFeed} {height : Nat} {e : Evidence} (h : evidence feed height = .ok e) :
    ∀ p ∈ e.active, IsNormal p.2 := by
  unfold evidence at h
  obtain ⟨validators, -, h⟩ := bind_eq_ok h
  obtain ⟨signatures, -, h⟩ := bind_eq_ok h
  obtain ⟨active, hset, h⟩ := bind_eq_ok h
  cases h
  exact ActiveSet.ofValidators_normal hset

/-- **A tracker that follows validators** finds intervals of normal owners. -/
theorem track_normal : ∀ {found : List Evidence} {tracker tracker' : Tracker},
    (∀ e ∈ found, ∀ p ∈ e.active, IsNormal p.2) → tracker.Normal → track tracker found = .ok tracker' → tracker'.Normal
  | [], _, _, _, h, htrack => by
    cases htrack
    exact h
  | e :: found, tracker, tracker', hfound, h, htrack => by
    unfold track at htrack
    obtain ⟨seen, hadd, htrack⟩ := bind_eq_ok htrack
    have hseen : seen.Normal := h.addSet (hfound e List.mem_cons_self) hadd
    exact track_normal (fun e' he' => hfound e' (List.mem_cons_of_mem _ he')) (hseen.addCommit e.signatures) htrack

theorem Tracker.Normal.rows (h : tracker.Normal) : ∀ i ∈ tracker.rows, IsNormal i.owner := by
  intro i hi
  obtain ⟨p, hp, rfl⟩ := List.mem_map.mp (List.mem_mergeSort.mp hi)
  exact h p hp

theorem votes_normal {height : Nat} (hset : ∀ p ∈ set, IsNormal p.2) : ∀ {signatures : List Signature} {rows : List Vote},
    votes height set signatures = .ok rows → ∀ v ∈ rows, IsNormal v.owner
  | [], _, h => by
    cases h
    simp
  | s :: signatures, rows, h => by
    unfold votes at h
    split at h
    · rcases howner : set.owner? s.validator with _ | owner <;> simp only [howner] at h
      · cases h
      rcases hrest : votes height set signatures with e | others <;> simp only [hrest] at h <;> cases h
      intro v hv
      rcases List.mem_cons.mp hv with rfl | hv
      · obtain ⟨p, hp, rfl⟩ := Option.map_eq_some_iff.mp howner
        exact hset p (Keyed.mem_of_get? hp)
      · exact votes_normal hset hrest v hv
    · exact votes_normal hset h

/-- **The votes of heights have normal owners.** -/
theorem votesOf_normal : ∀ {found : List Evidence} {rows : List Vote}, (∀ e ∈ found, ∀ p ∈ e.active, IsNormal p.2) →
    votesOf found = .ok rows → ∀ v ∈ rows, IsNormal v.owner
  | [], _, _, h => by
    cases h
    simp
  | e :: found, rows, hfound, h => by
    unfold votesOf at h
    obtain ⟨here, hvotes, h⟩ := bind_eq_ok h
    obtain ⟨others, hrest, h⟩ := bind_eq_ok h
    cases h
    intro v hv
    rcases List.mem_append.mp hv with hv | hv
    · exact votes_normal (hfound e List.mem_cons_self) hvotes v hv
    · exact votesOf_normal (fun e' he' => hfound e' (List.mem_cons_of_mem _ he')) hrest v hv

end Uptime

/-! ## Withdrawals -/

/-- **One withdrawal in two spellings** of its address. -/
def Withdrawal.Respells (w w' : Withdrawal) : Prop :=
  w.amount = w'.amount ∧ ∃ bytes : Bytes, bytes ≠ [] ∧ Spelled bytes w.address ∧ Spelled bytes w'.address

/-- One block whose withdrawals are spelled in two ways. -/
def ExecutionBlock.Respells (b b' : ExecutionBlock) : Prop :=
  b.height = b'.height ∧ List.Forall₂ Withdrawal.Respells b.withdrawals b'.withdrawals

/-- **One chain in two spellings**: both feeds deliver the same withdrawals, or the same faults. -/
def ExecutionFeed.Respells (feed feed' : ExecutionFeed) : Prop :=
  ∀ h, (∃ e, feed.block h = .error e ∧ feed'.block h = .error e) ∨
    ∃ b b', feed.block h = .ok b ∧ feed'.block h = .ok b' ∧ b.Respells b'

namespace Reward.Accumulator

variable {pending : Accumulator}

/-- **What is pending is pending for normal addresses.** -/
theorem addAll_normal (h : ∀ d ∈ pending, IsNormal d.address) (height : Nat) (ws : List Withdrawal) :
    ∀ d ∈ pending.addAll height ws, IsNormal d.address := by
  unfold addAll
  induction ws generalizing pending with
  | nil => exact h
  | cons w ws ih =>
    apply ih
    obtain ⟨d, hd, -, heq⟩ := pending.add_eq height w
    show ∀ d ∈ pending.add height w, IsNormal d.address
    rw [heq]
    intro d' hd'
    rcases Keyed.mem_put hd' with rfl | hd'
    · rw [hd]
      exact isNormal_normalForm w.address
    · exact h d' hd'

/-- **The spelling of an address plays no part** in what is pending. -/
theorem addAll_respelled {ws ws' : List Withdrawal} (h : List.Forall₂ Withdrawal.Respells ws ws')
    (pending : Accumulator) (height : Nat) : pending.addAll height ws = pending.addAll height ws' := by
  unfold addAll
  induction h generalizing pending with
  | nil => rfl
  | cons hw _ ih =>
    obtain ⟨hamount, bytes, hne, hs, hs'⟩ := hw
    rw [List.foldl_cons, List.foldl_cons, ih]
    simp only [add, hamount, hs.normalForm_eq hne, hs'.normalForm_eq hne]

end Reward.Accumulator

/-- What is gathered from two feeds that deliver one chain. -/
theorem ExecutionFeed.Respells.gatherFrom {feed feed' : ExecutionFeed} (h : feed.Respells feed') :
    ∀ (n height : Nat) {acc acc' : List ExecutionBlock}, List.Forall₂ ExecutionBlock.Respells acc acc' →
      (∃ e, Feed.gatherFrom feed.block n height acc = .error e ∧ Feed.gatherFrom feed'.block n height acc' = .error e) ∨
        ∃ l l', Feed.gatherFrom feed.block n height acc = .ok l ∧ Feed.gatherFrom feed'.block n height acc' = .ok l' ∧
          List.Forall₂ ExecutionBlock.Respells l l'
  | 0, _, acc, acc', hacc => .inr ⟨acc.reverse, acc'.reverse, rfl, rfl, List.forall₂_reverse_iff.mpr hacc⟩
  | n + 1, height, acc, acc', hacc => by
    unfold Feed.gatherFrom
    rcases h height with ⟨e, he, he'⟩ | ⟨b, b', hb, hb', hrespells⟩
    · rw [he, he']
      exact .inl ⟨e, rfl, rfl⟩
    · rw [hb, hb']
      exact ExecutionFeed.Respells.gatherFrom h n (height + 1) (.cons hrespells hacc)

end StakeTrail
