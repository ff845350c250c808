import Mathlib
import StakeTrail.Proofs.Store.Distinct
import StakeTrail.Proofs.Store.Lookups

/-!
# Operations, page by page

The operations of an address are its logs, each with every consensus event of its transaction, the newest log first.

* `joinedOperations_perm`: these are the pairs of a log of the address and an event with its transaction, one operation
  for each pair of rows. `Tells` says what the columns of an operation are.
* `Paged` says how a listing comes page by page. **The pages of the operations are those of one listing**
  (`operations_pages`), whatever the size of a page.

**Main statements.** Put one after the other, the pages hold the whole listing, the newest first (`operations_paged`). A
log is listed once for each event of its transaction (`operations_multiplied`), so once only if there is one.
-/

namespace StakeTrail.Store

open Database Staking

variable {t : Tables} {q v : String}

/-! ## Logs and events -/

/-- The logs of an address. -/
def logsOf (t : Tables) (v : String) : List ExecutionEvent := t.executionEvents.filter fun el => el.address = v

/-- The consensus events of the transaction of a log. -/
def carriers (t : Tables) (el : ExecutionEvent) : List ConsensusEvent :=
  t.consensusEvents.filter fun cl => cl.txHash = el.txHash

/-- **The pairs of a log of an address and an event of its transaction.** -/
def operationRows (t : Tables) (v : String) : List (ExecutionEvent × ConsensusEvent) :=
  (t.executionEvents ×ˢ t.consensusEvents).filter fun p => p.1.address = v ∧ p.2.txHash = p.1.txHash

theorem operationRows_eq (t : Tables) (v : String) :
    operationRows t v = (logsOf t v).flatMap fun el => (carriers t el).map fun cl => (el, cl) := by
  unfold operationRows logsOf carriers
  induction t.executionEvents with
  | nil => rfl
  | cons el els ih =>
    rw [List.product_cons, List.filter_append, ih, List.filter_map]
    by_cases hv : el.address = v
    · simp [hv, Function.comp_def]
    · simp [hv, Function.comp_def]

/-- **What is joined** is every such pair, in another order. -/
theorem joinedOperations_perm (t : Tables) (v : String) : (joinedOperations t v).Perm (operationRows t v) := by
  rw [operationRows_eq]
  exact List.mergeSort_perm _ _

theorem length_joinedOperations (t : Tables) (v : String) :
    (joinedOperations t v).length = ((logsOf t v).map fun el => (carriers t el).length).sum := by
  rw [(joinedOperations_perm t v).length_eq, operationRows_eq]
  simp [List.length_flatMap]

/-- The order of the listing, where blocks and places are half words. -/
theorem newestFirst_iff {p p' : ExecutionEvent × ConsensusEvent} (hp : p.1.block < 0x80000000 ∧ p.1.index < 0x80000000)
    (hp' : p'.1.block < 0x80000000 ∧ p'.1.index < 0x80000000) :
    newestFirst p p' = true ↔ p'.1.block < p.1.block ∨ p'.1.block = p.1.block ∧ p'.1.index ≤ p.1.index := by
  have hsame : Word.signed p'.1.block = Word.signed p.1.block ↔ p'.1.block = p.1.block := by
    rw [Word.signed_of_lt (by omega), Word.signed_of_lt (by omega), Int.ofNat_inj]
  simp only [newestFirst, Bool.or_eq_true, Bool.and_eq_true, beq_iff_eq, before_iff hp'.1 hp.1,
    notAfter_iff hp'.2 hp.2, hsame]

/-- The newest log comes first. -/
theorem joinedOperations_pairwise (t : Tables) (v : String) :
    (joinedOperations t v).Pairwise fun p p' => newestFirst p p' = true := by
  apply List.pairwise_mergeSort
  · intro p p' p''
    simp only [newestFirst, before, notAfter, Bool.or_eq_true, Bool.and_eq_true, beq_iff_eq, decide_eq_true_eq]
    omega
  · intro p p'
    simp only [newestFirst, before, notAfter, Bool.or_eq_true, Bool.and_eq_true, beq_iff_eq, decide_eq_true_eq]
    omega

/-- **The columns of an operation**: what was done is told by the log, and how it came out by the event. -/
structure Tells (o : Operation) (el : ExecutionEvent) (cl : ConsensusEvent) : Prop where
  txHash : o.txHash = el.txHash
  block : o.block = el.block
  kind : o.kind = el.kind
  address : o.address = el.address
  source : o.source = el.source
  target : o.target = el.target
  targetAddress : o.targetAddress = el.targetAddress
  succeeded : o.succeeded = cl.succeeded
  errorCode : o.errorCode = cl.errorCode
  amount : o.amount = cl.amount

/-- A block that is a half word is handed back as it is, and all other columns are. -/
theorem tells_ofEvents {el : ExecutionEvent} (h : el.block < 0x80000000) (cl : ConsensusEvent) :
    Tells (Operation.ofEvents el cl) el cl where
  txHash := rfl
  block := by rw [Operation.ofEvents, Word.readBack_of_lt h]
  kind := rfl
  address := rfl
  source := rfl
  target := rfl
  targetAddress := rfl
  succeeded := rfl
  errorCode := rfl
  amount := rfl

/-! ## Pages -/

/-- The size of a page that is asked for with some size. -/
def pageSize (size : Nat) : Nat := max 1 (min size largestPage)

theorem pageSize_pos (size : Nat) : 0 < pageSize size := by
  unfold pageSize
  omega

/-- **A listing page by page**: what the queries for the operations found with a text answer. -/
structure Paged (t : Tables) (q : String) (size : Nat) (listing : List (ExecutionEvent × ConsensusEvent))
    (pages : Nat → Page) : Prop where
  answers : ∀ k, Answers t (operations q k size) (pages k)
  total : ∀ k, (pages k).total = Word.readBack listing.length
  /-- The pages from the first to the last, one after the other, hold the listing. -/
  items : ((List.range' 1 (listing.length ⌈/⌉ pageSize size)).flatMap fun k => (pages k).items) =
    listing.map fun p => Operation.ofEvents p.1 p.2
  /-- Every page before the last one is full. -/
  full : ∀ k, 1 ≤ k → k < listing.length ⌈/⌉ pageSize size → (pages k).items.length = pageSize size
  past : ∀ k, listing.length ⌈/⌉ pageSize size < k → (pages k).items = []
  zeroth : pages 0 = pages 1

/-- **Slices of one size**, one after the other, are a beginning of the list. -/
theorem flatMap_slices {α : Type} (l : List α) (n : Nat) : ∀ k,
    ((List.range k).flatMap fun i => (l.drop (i * n)).take n) = l.take (k * n)
  | 0 => by simp
  | k + 1 => by
    rw [List.range_succ, List.flatMap_append, flatMap_slices l n k, List.flatMap_singleton, Nat.succ_mul, List.take_add]

/-- The pages of a listing. -/
theorem pageOf_paged {listing : List (ExecutionEvent × ConsensusEvent)} {size : Nat}
    (h : ∀ k, Answers t (operations q k size) (pageOf k size listing)) :
    Paged t q size listing fun k => pageOf k size listing := by
  have hlast : ∀ k, listing.length ⌈/⌉ pageSize size ≤ k ↔ listing.length ≤ pageSize size * k := fun k =>
    ceilDiv_le_iff_le_mul (pageSize_pos size)
  have hitems : ∀ i, (pageOf (1 + i) size listing).items =
      ((listing.drop (i * pageSize size)).take (pageSize size)).map fun p => Operation.ofEvents p.1 p.2 := by
    intro i
    have hskipped : max (1 + i) 1 - 1 = i := by omega
    rw [pageOf, hskipped, pageSize]
  refine ⟨h, ?_, ?_, ?_, ?_, ?_⟩
  · intro k
    rw [pageOf]
  · rw [List.range'_eq_map_range, List.flatMap_map]
    simp only [hitems]
    rw [← List.map_flatMap, flatMap_slices, List.take_of_length_le]
    rw [Nat.mul_comm]
    exact (hlast _).mp le_rfl
  · intro k hk hmore
    obtain ⟨i, rfl⟩ := Nat.exists_eq_add_of_le hk
    rw [← not_le, hlast, Nat.mul_add, Nat.mul_one, Nat.mul_comm] at hmore
    simp only [hitems, List.length_map, List.length_take, List.length_drop]
    omega
  · intro k hk
    obtain ⟨i, rfl⟩ := Nat.exists_eq_add_of_le (Nat.one_le_of_lt hk)
    have hall : listing.length ≤ i * pageSize size := by
      rw [Nat.mul_comm, ← hlast]
      omega
    rw [hitems, List.drop_of_length_le hall]
    simp
  · rw [pageOf, pageOf]
    rfl

/-- **The pages of the operations** are those of the joined rows, whatever the size of a page. -/
theorem operations_pages (t : Tables) (q : String) (size : Nat) :
    Paged t q size (joinedOperations t (Text.Case.lower q))
      fun k => pageOf k size (joinedOperations t (Text.Case.lower q)) :=
  pageOf_paged fun k => operations_answers rfl k size

/-- **Pagination neither loses nor repeats an operation.** There is one listing of the rows of an address, ordered by block
and then by place, the newest first, and for every size of a page its pages hold it from the first to the last, all
columns of each row: each page but the last one is full, each later one is empty, and all name the number of all rows. -/
theorem operations_paged (hrows : ∀ el ∈ t.executionEvents, el.block < 0x80000000 ∧ el.index < 0x80000000)
    (hcount : (operationRows t (Text.Case.lower q)).length < 0x80000000) :
    ∃ listing : List (ExecutionEvent × ConsensusEvent), listing.Perm (operationRows t (Text.Case.lower q)) ∧
      (listing.Pairwise fun p p' => p'.1.block < p.1.block ∨ p'.1.block = p.1.block ∧ p'.1.index ≤ p.1.index) ∧
      (∀ p ∈ listing, Tells (Operation.ofEvents p.1 p.2) p.1 p.2) ∧
      ∀ size, ∃ pages, Paged t q size listing pages ∧ ∀ k, (pages k).total = listing.length := by
  have hperm := joinedOperations_perm t (Text.Case.lower q)
  have hsmall : ∀ p ∈ joinedOperations t (Text.Case.lower q), p.1.block < 0x80000000 ∧ p.1.index < 0x80000000 :=
    fun p hp => hrows p.1 (mem_joinedOperations.mp hp).1
  refine ⟨_, hperm, ?_, fun p hp => tells_ofEvents (hsmall p hp).1 p.2, fun size =>
    ⟨_, operations_pages t q size, fun k => ?_⟩⟩
  · refine (joinedOperations_pairwise t _).imp_of_mem fun hp hp' hle => ?_
    exact (newestFirst_iff (hsmall _ hp) (hsmall _ hp')).mp hle
  · rw [(operations_pages t q size).total, Word.readBack_of_lt]
    rwa [hperm.length_eq]

/-! ### Two transactions in pages of three -/

/-- An address that has staked twice in one transaction. -/
def sampleOwner : String := "0x00000000000000000000000000000000000000d1"

/-- A stake of the address, with its place among the logs of the transaction. -/
def sampleStake (index : Nat) (target : String) : ExecutionEvent :=
  ⟨"0xaa", index, 5, .stake, sampleOwner, "", target, ""⟩

/-- A stake that was carried out, with its place among the events of the block. -/
def sampleCarried (index : Nat) : ConsensusEvent := ⟨6, index, "0xaa", .stake, true, "", "10"⟩

/-- Two logs and two events of one transaction. -/
def sampleTwins : Tables where
  executionEvents := [sampleStake 0 "v0", sampleStake 1 "v1"]
  consensusEvents := [sampleCarried 0, sampleCarried 1]

/-- **Four rows in pages of three**: a full page, one with a single row, and empty ones. -/
theorem sampleTwins_paged : ∃ pages : Nat → Page, (∀ k, Answers sampleTwins (operations sampleOwner k 3) (pages k)) ∧
    (∀ k, (pages k).total = 4) ∧ (pages 1).items.length = 3 ∧ (pages 2).items.length = 1 ∧ (pages 3).items = [] := by
  have hlower : Text.Case.lower sampleOwner = sampleOwner := by cbv
  have hrows : (operationRows sampleTwins (Text.Case.lower sampleOwner)).length = 4 := by
    rw [hlower]
    decide
  obtain ⟨listing, hperm, -, -, hpages⟩ := operations_paged (t := sampleTwins) (q := sampleOwner) (by decide)
    (by rw [hrows]; decide)
  obtain ⟨pages, h, htotal⟩ := hpages 3
  have hlength : listing.length = 4 := by rw [hperm.length_eq, hrows]
  have hlast : listing.length ⌈/⌉ pageSize 3 = 2 := by
    rw [hlength]
    rfl
  have hfull : (pages 1).items.length = 3 := h.full 1 le_rfl (by rw [hlast]; decide)
  have hitems := congrArg List.length h.items
  rw [hlast, List.length_map, hlength] at hitems
  simp only [List.range'_succ, List.range'_zero, List.flatMap_cons, List.flatMap_nil, List.length_append,
    List.length_nil, Nat.reduceAdd] at hitems
  have hrest : (pages 2).items.length = 1 := by omega
  exact ⟨pages, h.answers, fun k => by rw [htotal, hlength], hfull, hrest, h.past 3 (by rw [hlast]; decide)⟩

/-! ## Logs that are listed more than once -/

/-- Counts add up to the number of those that are not zero just if none is greater than one. -/
theorem sum_eq_countP_iff {α : Type} (f : α → Nat) (l : List α) :
    (l.map f).sum = l.countP (fun a => decide (0 < f a)) ↔ ∀ a ∈ l, f a ≤ 1 := by
  have hle : ∀ l : List α, l.countP (fun a => decide (0 < f a)) ≤ (l.map f).sum := by
    intro l
    induction l with
    | nil => simp
    | cons a l ih =>
      simp only [List.countP_cons, List.map_cons, List.sum_cons, decide_eq_true_eq]
      split <;> omega
  induction l with
  | nil => simp
  | cons a l ih =>
    have hrest := hle l
    simp only [List.countP_cons, List.map_cons, List.sum_cons, List.forall_mem_cons, ← ih, decide_eq_true_eq]
    split <;> omega

/-- **A log is listed once for each event of its transaction**, and nothing else is listed. So each log that has an event
is listed once, and the number of all rows is that of these logs, just if none of their transactions has two events. -/
theorem operations_multiplied (hel : (t.executionEvents.map executionEventKey).Nodup)
    (hcl : (t.consensusEvents.map consensusEventKey).Nodup) (q : String) :
    ∃ listing : List (ExecutionEvent × ConsensusEvent), (∀ size, ∃ pages, Paged t q size listing pages) ∧
      (∀ p ∈ listing, p.1 ∈ logsOf t (Text.Case.lower q)) ∧
      (∀ el ∈ logsOf t (Text.Case.lower q),
        (listing.filter fun p => p.1 = el).Perm ((carriers t el).map fun cl => (el, cl))) ∧
      ((∀ el ∈ logsOf t (Text.Case.lower q), carriers t el ≠ [] → (listing.filter fun p => p.1 = el).length = 1) ↔
        ∀ el ∈ logsOf t (Text.Case.lower q), (carriers t el).length ≤ 1) ∧
      (listing.length = ((logsOf t (Text.Case.lower q)).filter fun el => carriers t el ≠ []).length ↔
        ∀ el ∈ logsOf t (Text.Case.lower q), (carriers t el).length ≤ 1) := by
  generalize hv : Text.Case.lower q = v
  have hmem : ∀ el cl, (el, cl) ∈ joinedOperations t v ↔ el ∈ logsOf t v ∧ cl ∈ carriers t el := by
    intro el cl
    simp [mem_joinedOperations, logsOf, carriers, and_assoc]
  have hfiltered : ∀ el ∈ logsOf t v,
      ((joinedOperations t v).filter fun p => p.1 = el).Perm ((carriers t el).map fun cl => (el, cl)) := by
    intro el hlog
    have hcarriers : (carriers t el).Nodup := hcl.of_map.filter _
    rw [List.perm_ext_iff_of_nodup ((nodup_joinedOperations hel hcl v).filter _)
      (hcarriers.map fun _ _ heq => (Prod.mk.inj heq).2)]
    rintro ⟨el', cl⟩
    simp only [List.mem_filter, hmem, decide_eq_true_eq, List.mem_map, Prod.mk.injEq]
    constructor
    · rintro ⟨⟨-, hcl⟩, rfl⟩
      exact ⟨cl, hcl, rfl, rfl⟩
    · rintro ⟨cl, hcl, rfl, rfl⟩
      exact ⟨⟨hlog, hcl⟩, rfl⟩
  refine ⟨joinedOperations t v, fun size => ⟨_, hv ▸ operations_pages t q size⟩, ?_, hfiltered, ?_, ?_⟩
  · intro p hp
    exact ((hmem p.1 p.2).mp hp).1
  · refine forall₂_congr fun el hlog => ?_
    rw [(hfiltered el hlog).length_eq, List.length_map]
    rcases carriers t el with _ | ⟨cl, _ | ⟨cl', rest⟩⟩ <;> simp
  · have hsome : (logsOf t v).filter (fun el => carriers t el ≠ []) =
        (logsOf t v).filter fun el => decide (0 < (carriers t el).length) := by
      simp [List.length_pos_iff]
    rw [hsome, ← List.countP_eq_length_filter, length_joinedOperations, sum_eq_countP_iff]

/-- Both logs of the transaction have two events. -/
theorem sampleTwins_multiplied : ∃ listing : List (ExecutionEvent × ConsensusEvent),
    (∀ size, ∃ pages, Paged sampleTwins sampleOwner size listing pages) ∧
    listing.length ≠ ((logsOf sampleTwins sampleOwner).filter fun el => carriers sampleTwins el ≠ []).length ∧
    (listing.filter fun p => p.1 = sampleStake 0 "v0").Perm
      [(sampleStake 0 "v0", sampleCarried 0), (sampleStake 0 "v0", sampleCarried 1)] := by
  have hlower : Text.Case.lower sampleOwner = sampleOwner := by cbv
  obtain ⟨listing, hpages, -, hlisted, -, htotal⟩ :=
    operations_multiplied (t := sampleTwins) (by decide) (by decide) sampleOwner
  rw [hlower] at hlisted htotal
  refine ⟨listing, hpages, ?_, hlisted _ (by decide)⟩
  rw [Ne, htotal]
  decide

/-- **Two logs of one transaction with two events**: each of them is listed twice, and they count as four. -/
theorem sampleTwins_doubled : sampleTwins.Distinct ∧
    ((logsOf sampleTwins sampleOwner).filter fun el => carriers sampleTwins el ≠ []).length = 2 ∧
    Answers sampleTwins (operations sampleOwner 1 10) ⟨4, [
      .ofEvents (sampleStake 1 "v1") (sampleCarried 0), .ofEvents (sampleStake 1 "v1") (sampleCarried 1),
      .ofEvents (sampleStake 0 "v0") (sampleCarried 0), .ofEvents (sampleStake 0 "v0") (sampleCarried 1)]⟩ ∧
    Answers sampleTwins (operations sampleOwner 2 10) ⟨4, []⟩ := by
  have hlower : Text.Case.lower sampleOwner = sampleOwner := by cbv
  have hfirst := operations_answers (t := sampleTwins) hlower 1 10
  have hsecond := operations_answers (t := sampleTwins) hlower 2 10
  have hpage : pageOf 1 10 (joinedOperations sampleTwins sampleOwner) = ⟨4, [
      .ofEvents (sampleStake 1 "v1") (sampleCarried 0), .ofEvents (sampleStake 1 "v1") (sampleCarried 1),
      .ofEvents (sampleStake 0 "v0") (sampleCarried 0), .ofEvents (sampleStake 0 "v0") (sampleCarried 1)]⟩ := by cbv
  have hempty : pageOf 2 10 (joinedOperations sampleTwins sampleOwner) = ⟨4, []⟩ := by cbv
  rw [hpage] at hfirst
  rw [hempty] at hsecond
  exact ⟨by decide, by decide, hfirst, hsecond⟩

end StakeTrail.Store
