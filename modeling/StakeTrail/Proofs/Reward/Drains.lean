import Mathlib
import StakeTrail.Proofs.Reward.Tally
import StakeTrail.Proofs.Text.Order

/-!
# Drains in any place

A run adds withdrawals to an accumulator and drains it now and then, and what is drained is merged into totals. At any
moment the totals and what is pending, joined, are the tally of all additions, and what is pending is the tally of those
after the last drain (`run_accounts`). When the last move is a drain nothing is pending, and the totals are those of all
additions; so neither their order nor the places of the other drains matter.

**The main statement** (`drains_add_up`) says this, and what a single drain lists.
-/

namespace StakeTrail.Reward

/-! ## Moves -/

/-- A withdrawal with its height. -/
abbrev Addition := Nat × Withdrawal

/-- The address of an addition, in normal form. -/
def Addition.owner (x : Addition) : String := payee x.2

def Addition.share (x : Addition) : Share := (x.2.amount, x.1)

/-- What is done to an accumulator. -/
inductive Move
  | add (x : Addition)
  | drain
  deriving Repr

/-- An accumulator, and the totals into which it was drained. -/
structure Purse where
  pending : Accumulator := []
  totals : List Total := []
  deriving Repr

/-- Makes one move. -/
def Purse.move (s : Purse) : Move → Purse
  | .add x => { s with pending := s.pending.add x.1 x.2 }
  | .drain => ⟨s.pending.drain.2, mergeAll s.totals s.pending.drain.1⟩

/-- Makes moves from the beginning. -/
def run (moves : List Move) : Purse := moves.foldl Purse.move {}

/-- All additions. -/
def additions (moves : List Move) : List Addition := moves.flatMap fun
  | .add x => [x]
  | .drain => []

/-- The additions after the last drain. -/
def unsettled (moves : List Move) : List Addition := moves.foldl (fun l => fun
  | .add x => l ++ [x]
  | .drain => []) []

theorem run_concat (moves : List Move) (m : Move) : run (moves ++ [m]) = (run moves).move m := by
  simp [run]

@[simp] theorem additions_concat_add (moves : List Move) (x : Addition) :
    additions (moves ++ [.add x]) = additions moves ++ [x] := by
  simp [additions]

@[simp] theorem additions_concat_drain (moves : List Move) : additions (moves ++ [.drain]) = additions moves := by
  simp [additions]

@[simp] theorem unsettled_concat_add (moves : List Move) (x : Addition) :
    unsettled (moves ++ [.add x]) = unsettled moves ++ [x] := by
  simp [unsettled]

@[simp] theorem unsettled_concat_drain (moves : List Move) : unsettled (moves ++ [.drain]) = [] := by
  simp [unsettled]

/-! ## Totals -/

/-- The share of a total. -/
def Total.share (t : Total) : Share := (t.amount, t.height)

/-- What an address holds. -/
def held (a : String) (totals : List Total) : Option Share := (Keyed.get? Total.address a totals).map Total.share

/-- **Merging a delta** joins its share. -/
theorem merge_eq (stored : Option Total) (d : Delta) :
    (merge stored d).address = d.address ∧
      join (stored.map Total.share) (some d.share) = some (merge stored d).share := by
  cases stored <;> exact ⟨rfl, rfl⟩

/-- **Merging deltas** joins their tally. -/
theorem held_mergeAll (a : String) (deltas : List Delta) (totals : List Total) :
    held a (mergeAll totals deltas) = join (held a totals) (tally Delta.address Delta.share a deltas) := by
  induction deltas generalizing totals with
  | nil => rw [tally, join_none]; rfl
  | cons d deltas ih =>
    obtain ⟨haddress, hjoin⟩ := merge_eq (Keyed.get? Total.address d.address totals) d
    have hone : held a (Keyed.put Total.address (merge (Keyed.get? Total.address d.address totals) d) totals) =
        join (held a totals) (if d.address = a then some d.share else none) := by
      rw [held, Keyed.get?_put, haddress]
      by_cases ha : d.address = a
      · rw [if_pos ha, if_pos ha, Option.map_some, ← hjoin, ha, held]
      · rw [if_neg ha, if_neg ha, join_none, held]
    rw [tally, ← join_assoc, ← hone, ← ih]
    rfl

/-! ## What runs keep -/

/-- **The accounts of a run.** -/
structure Accounts (moves : List Move) (s : Purse) : Prop where
  nodup : (s.pending.map Delta.address).Nodup
  pending : ∀ a, share? a s.pending = tally Addition.owner Addition.share a (unsettled moves)
  all : ∀ a, join (held a s.totals) (share? a s.pending) = tally Addition.owner Addition.share a (additions moves)

/-- One more addition joins its share. -/
theorem tally_concat (a : String) (l : List Addition) (x : Addition) :
    tally Addition.owner Addition.share a (l ++ [x]) =
      join (tally Addition.owner Addition.share a l) (if x.owner = a then some x.share else none) := by
  rw [tally_append, tally, tally, join_none]

/-- **One move keeps the accounts.** -/
theorem Accounts.move {moves : List Move} {s : Purse} (h : Accounts moves s) :
    ∀ m : Move, Accounts (moves ++ [m]) (s.move m)
  | .add x => by
    have hshare : ∀ a, share? a (s.pending.add x.1 x.2) =
        join (share? a s.pending) (if x.owner = a then some x.share else none) :=
      fun a => Accumulator.share?_add a s.pending x.1 x.2
    refine ⟨Accumulator.nodup_add h.nodup x.1 x.2, fun a => ?_, fun a => ?_⟩
    · rw [unsettled_concat_add, tally_concat, ← h.pending]
      exact hshare a
    · rw [additions_concat_add, tally_concat, ← h.all, join_assoc, ← hshare]
      rfl
  | .drain => by
    refine ⟨List.nodup_nil, fun a => ?_, fun a => ?_⟩
    · rw [unsettled_concat_drain]
      rfl
    · rw [additions_concat_drain, ← h.all, ← Accumulator.tally_drained h.nodup, ← held_mergeAll]
      exact join_none _

/-- **All runs keep the accounts.** -/
theorem run_accounts (moves : List Move) : Accounts moves (run moves) := by
  induction moves using List.reverseRecOn with
  | nil => exact ⟨List.nodup_nil, fun _ => rfl, fun _ => rfl⟩
  | append_singleton moves m ih =>
    rw [run_concat]
    exact ih.move m

/-! ## What is owed to an address -/

/-- The additions for an address. -/
def owedTo (a : String) (l : List Addition) : List Addition := l.filter (Addition.owner · = a)

/-- **What additions come to**: for an address that has some, the sum of its amounts and the greatest of its heights. -/
def totalOf (a : String) (l : List Addition) : Option Total :=
  if owedTo a l = [] then none
  else some ⟨a, ((owedTo a l).map fun x => x.2.amount).sum, ((owedTo a l).map Prod.fst).foldr max 0⟩

theorem owedTo_eq_nil {a : String} {l : List Addition} : owedTo a l = [] ↔ ∀ x ∈ l, x.owner ≠ a := by
  simp [owedTo]

/-- A tally is what the additions come to. -/
theorem totalOf_eq (a : String) (l : List Addition) :
    totalOf a l = (tally Addition.owner Addition.share a l).map fun s => ⟨a, s.1, s.2⟩ := by
  unfold totalOf
  rcases ht : tally Addition.owner Addition.share a l with _ | ⟨n, h⟩
  · rw [if_pos (owedTo_eq_nil.mpr (tally_eq_none_iff.mp ht)), Option.map_none]
  · have hsome : owedTo a l ≠ [] := fun hnone => by
      rw [tally_eq_none_iff.mpr (owedTo_eq_nil.mp hnone)] at ht
      cases ht
    have hamount : n = ((owedTo a l).map fun x => x.2.amount).sum := by
      have hsum : ((tally Addition.owner Addition.share a l).map Prod.fst).getD 0 =
          ((owedTo a l).map fun x => x.2.amount).sum := tally_amount l
      rwa [ht] at hsum
    have hheight : h = ((owedTo a l).map Prod.fst).foldr max 0 := by
      obtain ⟨⟨x, hx, hxa, rfl⟩, hle⟩ := tally_height ht
      have hfound : x.1 ∈ (owedTo a l).map Prod.fst :=
        List.mem_map_of_mem (List.mem_filter.mpr ⟨hx, by simpa using hxa⟩)
      refine Nat.le_antisymm (List.le_max_of_le' 0 hfound le_rfl) (List.max_le_of_forall_le _ _ fun k hk => ?_)
      obtain ⟨y, hy, rfl⟩ := List.mem_map.mp hk
      obtain ⟨hy, hya⟩ := List.mem_filter.mp hy
      exact hle y hy (by simpa using hya)
    rw [if_neg hsome, Option.map_some, ← hamount, ← hheight]

/-- **The order of additions does not matter.** -/
theorem totalOf_perm {l l' : List Addition} (h : l.Perm l') (a : String) : totalOf a l = totalOf a l' := by
  have howed : (owedTo a l).Perm (owedTo a l') := h.filter _
  have hempty : owedTo a l = [] ↔ owedTo a l' = [] := by
    rw [← List.length_eq_zero_iff, ← List.length_eq_zero_iff, howed.length_eq]
  have hheights : ((owedTo a l).map Prod.fst).foldr max 0 = ((owedTo a l').map Prod.fst).foldr max 0 :=
    (howed.map Prod.fst).foldr_eq 0
  unfold totalOf
  simp only [hempty, (howed.map fun x : Addition => x.2.amount).sum_eq, hheights]

/-- What an address holds is its total. -/
theorem get?_eq_held (a : String) (totals : List Total) :
    Keyed.get? Total.address a totals = (held a totals).map fun s => ⟨a, s.1, s.2⟩ := by
  rw [held]
  rcases ht : Keyed.get? Total.address a totals with _ | t
  · rfl
  · rw [← Keyed.key_of_get? ht]
    rfl

/-- **After a drain the totals are those of all additions.** -/
theorem get?_drained (moves : List Move) (a : String) :
    Keyed.get? Total.address a (run (moves ++ [.drain])).totals = totalOf a (additions moves) := by
  have h := (run_accounts (moves ++ [.drain])).all a
  rw [additions_concat_drain] at h
  rw [get?_eq_held, totalOf_eq, ← h, run_concat]
  exact congrArg _ (join_none _).symm

/-! ## One drain -/

/-- Lower addresses come first, and each of them once. -/
theorem drained_ascends {pending : Accumulator} (hn : (pending.map Delta.address).Nodup) :
    pending.drained.Pairwise fun d e => Text.Hex.utf8 d.address < Text.Hex.utf8 e.address := by
  have hsorted : pending.drained.Pairwise fun d e => decide (d.address ≤ e.address) = true := by
    apply List.pairwise_mergeSort
    · intro d e f hde hef
      simp only [decide_eq_true_eq] at hde hef ⊢
      exact String.le_trans hde hef
    · intro d e
      simpa using String.le_total d.address e.address
  have hdistinct : pending.drained.Pairwise fun d e => d.address ≠ e.address :=
    List.pairwise_map.mp (((List.mergeSort_perm _ _).map Delta.address).nodup_iff.mpr hn)
  refine (hsorted.and hdistinct).imp fun h => Text.utf8_lt_iff.mpr ?_
  exact lt_of_le_of_ne (of_decide_eq_true h.1) h.2

/-- What is drained is what the additions after the last drain come to. -/
theorem mem_drained_iff {moves : List Move} {d : Delta} : d ∈ (run moves).pending.drained ↔
    totalOf d.address (unsettled moves) = some ⟨d.address, d.amount, d.height⟩ := by
  have haccounts := run_accounts moves
  have hperm : (run moves).pending.drained.Perm (run moves).pending := List.mergeSort_perm _ _
  rw [totalOf_eq, ← haccounts.pending, share?, hperm.mem_iff]
  constructor
  · intro hd
    rw [(Keyed.get?_iff haccounts.nodup).mpr ⟨hd, rfl⟩]
    rfl
  · intro h
    obtain ⟨s, hs, hd⟩ := Option.map_eq_some_iff.mp h
    obtain ⟨e, he, rfl⟩ := Option.map_eq_some_iff.mp hs
    have heq : e = d := by
      have haddress := Keyed.key_of_get? he
      cases e
      cases d
      simp_all [Delta.share]
    exact heq ▸ Keyed.mem_of_get? he

/-- As many addresses are pending as were added for since the last drain. -/
theorem length_pending (moves : List Move) :
    (run moves).pending.length = ((unsettled moves).map Addition.owner).toFinset.card := by
  have haccounts := run_accounts moves
  have hsame : ((unsettled moves).map Addition.owner).toFinset = ((run moves).pending.map Delta.address).toFinset := by
    ext a
    have htally : tally Addition.owner Addition.share a (unsettled moves) = none ↔ ∀ x ∈ unsettled moves, x.owner ≠ a :=
      tally_eq_none_iff
    have hnone : (∀ x ∈ unsettled moves, x.owner ≠ a) ↔ ∀ d ∈ (run moves).pending, d.address ≠ a := by
      rw [← htally, ← haccounts.pending, share?, Option.map_eq_none_iff, Keyed.get?_eq_none]
    simpa using not_congr hnone
  rw [hsame, List.toFinset_card_of_nodup haccounts.nodup, List.length_map]

/-- **Rewards add up wherever they are drained.** Let a run of additions and drains end with a drain. Then the totals
hold, for each address in normal form, the sum of its amounts and the greatest of its heights; the order of the
additions and the places of the other drains do not matter. At any moment of a run a drain lists what the additions
after the last one come to, each address once and in ascending order, and nothing stays; and the accumulator is full just
if these additions are for enough addresses. -/
theorem drains_add_up (moves : List Move) :
    (∀ a, Keyed.get? Total.address a (run (moves ++ [.drain])).totals = totalOf a (additions moves)) ∧
    (∀ moves', (additions moves).Perm (additions moves') → ∀ a,
      Keyed.get? Total.address a (run (moves' ++ [.drain])).totals =
        Keyed.get? Total.address a (run (moves ++ [.drain])).totals) ∧
    (run moves).pending.drain.1.Pairwise (fun d e => Text.Hex.utf8 d.address < Text.Hex.utf8 e.address) ∧
    (∀ d, d ∈ (run moves).pending.drain.1 ↔
      totalOf d.address (unsettled moves) = some ⟨d.address, d.amount, d.height⟩) ∧
    (run moves).pending.drain.2 = [] ∧
    ∀ flushSize, (run moves).pending.isFull flushSize = true ↔
      max flushSize 1 ≤ ((unsettled moves).map Addition.owner).toFinset.card := by
  refine ⟨get?_drained moves, fun moves' h a => ?_, drained_ascends (run_accounts moves).nodup,
    fun d => mem_drained_iff, rfl, fun flushSize => ?_⟩
  · rw [get?_drained, get?_drained, totalOf_perm h]
  · rw [← length_pending, Accumulator.isFull, decide_eq_true_eq]

/-! ### Two spellings of an address -/

/-- Withdrawals of two addresses, one of them in two spellings, with falling heights and a drain between. -/
def sampleMoves : List Move :=
  [.add (5, ⟨"0xAB", 7⟩), .drain, .add (4, ⟨" ab", 2⟩), .add (3, ⟨"0x01", 1⟩)]

/-- The same withdrawals in another order, with a drain before the last of them. -/
def shuffledMoves : List Move :=
  [.add (3, ⟨"0x01", 1⟩), .add (5, ⟨"0xAB", 7⟩), .drain, .add (4, ⟨" ab", 2⟩)]

/-- The totals of the two runs agree, and a drain lists the two addresses that are pending. -/
theorem sampleMoves_add_up :
    Keyed.get? Total.address "0xab" (run (sampleMoves ++ [.drain])).totals = some ⟨"0xab", 9, 5⟩ ∧
    (additions sampleMoves).Perm (additions shuffledMoves) ∧
    (∀ a, Keyed.get? Total.address a (run (shuffledMoves ++ [.drain])).totals =
      Keyed.get? Total.address a (run (sampleMoves ++ [.drain])).totals) ∧
    ⟨"0xab", 2, 4⟩ ∈ (run sampleMoves).pending.drain.1 ∧
    (run sampleMoves).pending.isFull 2 = true := by
  obtain ⟨htotal, hshuffled, -, hmem, -, hfull⟩ := drains_add_up sampleMoves
  have hperm : (additions sampleMoves).Perm (additions shuffledMoves) := by decide
  exact ⟨(htotal "0xab").trans (by decide), hperm, hshuffled shuffledMoves hperm, (hmem _).mpr (by decide),
    (hfull 2).mpr (by decide)⟩

end StakeTrail.Reward
