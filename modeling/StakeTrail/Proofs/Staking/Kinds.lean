import Mathlib
import StakeTrail.Proofs.Stake.Annals

/-!
# Two readings of one event

The running total takes an event by its type and adds the amounts of successful delegations and undelegations (`net`).
The history takes the stored row of the event: it has to be carried out by its own delegator and to carry no error code,
while the ending of its type does not matter. `change_of_event` says what the second reading gives in terms of the
first, and `getD_due` what it gives for a block that could be classified.
-/

namespace StakeTrail

open Stake Staking

/-! ## Types -/

namespace Text

theorem after?_eq_some : ∀ {start cs rest : List Char}, after? start cs = some rest ↔ cs = start ++ rest
  | [], cs, rest => by simp [after?]
  | a :: start, [], rest => by simp [after?]
  | a :: start, c :: cs, rest => by
    rw [after?]
    split
    · rename_i h
      simp [after?_eq_some, h]
    · rename_i h
      simp [Ne.symm h]

theorem before?_eq_some {ending cs name : List Char} : before? ending cs = some name ↔ cs = name ++ ending := by
  unfold before?
  rw [Option.map_eq_some_iff]
  constructor
  · rintro ⟨rest, hrest, rfl⟩
    have := congrArg List.reverse (after?_eq_some.mp hrest)
    simpa using this
  · rintro rfl
    exact ⟨name.reverse, after?_eq_some.mpr (by simp), by simp⟩

end Text

namespace Staking.Classify

/-- **The operation that a type names.** -/
theorem operation?_eq_some {type : String} {name : List Char} :
    operation? type = some name ↔
      type.toList = name ++ "_success".toList ∨ type.toList = name ++ "_failure".toList := by
  unfold operation?
  rw [Option.or_eq_some_iff, Text.before?_eq_some, Text.before?_eq_some]
  refine or_congr_right ⟨And.right, fun h => ⟨?_, h⟩⟩
  -- no type has both endings
  by_contra hne
  obtain ⟨other, hother⟩ := Option.ne_none_iff_exists'.mp hne
  have heq := (Text.before?_eq_some.mp hother).symm.trans h
  have hend := (List.append_inj' heq (by decide)).2
  exact absurd hend (by decide)

/-- **The kind of a type**, for each operation. -/
theorem baseKind?_eq_some {entry : String × Kind} (he : entry ∈ bases) {type : String} :
    baseKind? type = some entry.2 ↔ type = entry.1 ++ "_success" ∨ type = entry.1 ++ "_failure" := by
  have hkinds : ∀ a ∈ bases, ∀ b ∈ bases, a.2 = b.2 → a = b := by decide
  have hnames : ∀ a ∈ bases, bases.find? (fun b => b.1.toList == a.1.toList) = some a := by decide
  have htype : ∀ ending : String, type = entry.1 ++ ending ↔ type.toList = entry.1.toList ++ ending.toList := by
    intro ending
    rw [← String.toList_inj, String.toList_append]
  rw [htype, htype, ← operation?_eq_some]
  unfold baseKind?
  constructor
  · intro h
    obtain ⟨name, hname, hfind⟩ := Option.bind_eq_some_iff.mp h
    obtain ⟨found, hfound, hkind⟩ := Option.map_eq_some_iff.mp hfind
    have hsame : found = entry := hkinds found (List.mem_of_find?_eq_some hfound) entry he hkind
    have hspelt := List.find?_some hfound
    rw [hsame, beq_iff_eq] at hspelt
    rw [hname, hspelt]
  · intro h
    rw [h]
    simp [hnames entry he]

theorem baseKind?_stake {type : String} :
    baseKind? type = some .stake ↔ type = "delegate_success" ∨ type = "delegate_failure" :=
  baseKind?_eq_some (show ("delegate", Kind.stake) ∈ bases by decide)

theorem baseKind?_unstake {type : String} :
    baseKind? type = some .unstake ↔ type = "undelegate_success" ∨ type = "undelegate_failure" :=
  baseKind?_eq_some (show ("undelegate", Kind.unstake) ∈ bases by decide)

theorem needed_eq {event : EventRecord} {kind : Kind} {key value : String}
    (h : needed event kind key = .ok value) : event.get? key = some value := by
  unfold needed at h
  rcases hg : event.get? key with _ | v <;> rw [hg] at h <;> cases h
  rfl

/-- **The actual kind** is that of the type, or its form on behalf. -/
theorem actualKind_eq {event : EventRecord} {base kind : Kind} (h : actualKind event base = .ok kind) :
    (principal? event base = .ok none ∧ kind = base) ∨
      ∃ p s, principal? event base = .ok (some p) ∧ event.get? "sender_address" = some s ∧
        kind = base.actedBy (Address.agree p s) := by
  unfold actualKind at h
  rcases hp : principal? event base with e | _ | p <;> simp only [hp, bind, Except.bind] at h
  · cases h
  · cases h
    exact .inl ⟨rfl, rfl⟩
  · rcases hs : needed event base "sender_address" with e | s <;> simp only [hs] at h <;> cases h
    exact .inr ⟨p, s, rfl, needed_eq hs, rfl⟩

end Staking.Classify

/-! ## Events -/

namespace EventRecord

/-- Whether the sender of an event is its delegator. -/
def isOwn (e : EventRecord) : Bool :=
  match e.get? "delegator_addr", e.get? "sender_address" with
  | some delegator, some sender => Address.agree delegator sender
  | _, _ => false

/-- Whether an event carries an error code. -/
def hasCode (e : EventRecord) : Bool := (e.get? "error_code").isSome

end EventRecord

namespace Stake

/-- What an event would have added to the total stake, had it not failed. -/
def missed (e : EventRecord) : Int :=
  if e.kind = "delegate_failure" then worth (amountText e)
  else if e.kind = "undelegate_failure" then -worth (amountText e)
  else 0

/-- An event of another kind is worth nothing in either reading. -/
theorem net_missed_of_base {e : EventRecord} (hstake : Classify.baseKind? e.kind ≠ some .stake)
    (hunstake : Classify.baseKind? e.kind ≠ some .unstake) : net e = 0 ∧ missed e = 0 := by
  rw [Ne, Classify.baseKind?_stake, not_or] at hstake
  rw [Ne, Classify.baseKind?_unstake, not_or] at hunstake
  simp [net, missed, hstake, hunstake]

/-- A delegation, successful or not, is worth its amount in one of the readings. -/
theorem net_missed_of_stake {e : EventRecord} (h : Classify.baseKind? e.kind = some .stake) :
    net e + missed e = worth (amountText e) := by
  rcases Classify.baseKind?_stake.mp h with h | h <;> simp [net, missed, h]

theorem net_missed_of_unstake {e : EventRecord} (h : Classify.baseKind? e.kind = some .unstake) :
    net e + missed e = -worth (amountText e) := by
  rcases Classify.baseKind?_unstake.mp h with h | h <;> simp [net, missed, h]

/-- A delegation or undelegation is on behalf when its sender is not its delegator. -/
theorem actualKind_own {e : EventRecord} {base kind : Kind} (hbase : base = .stake ∨ base = .unstake)
    (h : Classify.actualKind e base = .ok kind) : kind = base.actedBy e.isOwn := by
  have hprincipal : Classify.principal? e base = (Classify.needed e base "delegator_addr").map some := by
    rcases hbase with rfl | rfl <;> rfl
  rcases Classify.actualKind_eq h with ⟨hnone, -⟩ | ⟨p, s, hp, hs, rfl⟩
  · rw [hprincipal] at hnone
    rcases hd : Classify.needed e base "delegator_addr" with why | d <;> rw [hd] at hnone <;> cases hnone
  · rw [hprincipal] at hp
    rcases hd : Classify.needed e base "delegator_addr" with why | d <;> rw [hd] at hp <;> cases hp
    rw [EventRecord.isOwn, Classify.needed_eq hd, hs]

/-- **What the stored row of an event adds to the history**: what the event is worth, successful or not, if it is
carried out by its own delegator and carries no error code. -/
theorem change_of_event {block index : Nat} {e : EventRecord} {row : Option ConsensusEvent}
    (h : rowOfEvent block index e = .ok row) :
    (row.bind ConsensusEvent.change?).getD 0 = if e.isOwn = true ∧ e.hasCode = false then net e + missed e else 0 := by
  rcases rowOfEvent_eq h with ⟨hbase, rfl⟩ | ⟨base, kind, hbase, hkind, rfl⟩
  · obtain ⟨hnet, hmissed⟩ := net_missed_of_base (e := e) (by simp [hbase]) (by simp [hbase])
    simp [hnet, hmissed]
  have hcode : (e.get? "error_code").isNone = !e.hasCode := by
    rw [EventRecord.hasCode]
    cases e.get? "error_code" <;> rfl
  have hchange : (some (rowOf block index e kind)).bind ConsensusEvent.change? =
      if !e.hasCode then Change.signed? ⟨block, none, kind, amountText e⟩ else none := by
    rw [Option.bind_some, ConsensusEvent.change?, rowOf, hcode]
    rfl
  rw [hchange]
  cases e.hasCode with
  | true => simp
  | false =>
    by_cases hs : base = .stake
    · subst hs
      rw [actualKind_own (.inl rfl) hkind, net_missed_of_stake hbase]
      cases e.isOwn <;> simp [Change.signed?, Kind.actedBy, Kind.onBehalf?]
    · by_cases hu : base = .unstake
      · subst hu
        rw [actualKind_own (.inr rfl) hkind, net_missed_of_unstake hbase]
        cases e.isOwn <;> simp [Change.signed?, Kind.actedBy, Kind.onBehalf?]
      · -- neither form of any other kind is a change
        obtain ⟨hnet, hmissed⟩ := net_missed_of_base (e := e) (by simp [hbase, hs]) (by simp [hbase, hu])
        have hother : ∀ b, base.actedBy b ≠ .stake ∧ base.actedBy b ≠ .unstake := by
          intro b
          cases b <;> cases base <;> simp_all [Kind.actedBy, Kind.onBehalf?]
        have hkind : kind ≠ .stake ∧ kind ≠ .unstake := by
          rcases Classify.actualKind_eq hkind with ⟨-, rfl⟩ | ⟨p, s, -, -, rfl⟩
          · exact ⟨hs, hu⟩
          · exact hother _
        cases kind <;> simp_all [Change.signed?]

/-- A delegation or undelegation that is carried out by its own delegator and carries no error code has a row that
counts, with its amount. -/
theorem exists_change {block : Nat} {e : EventRecord} (hown : e.isOwn = true) (hcode : e.hasCode = false)
    (hbase : Classify.baseKind? e.kind = some .stake ∨ Classify.baseKind? e.kind = some .unstake) :
    ∀ {events : List EventRecord} {index : Nat} {rows : List ConsensusEvent}, e ∈ events →
      rowsFrom block index events = .ok rows → ∃ r ∈ rows, r.change? ≠ none ∧ r.amount = amountText e
  | other :: events, index, rows, he, h => by
    obtain ⟨row, others, hrow, hrest, rfl⟩ := rowsFrom_cons h
    rcases List.mem_cons.mp he with rfl | he
    · rcases rowOfEvent_eq hrow with ⟨hno, -⟩ | ⟨base, kind, hsome, hkind, rfl⟩
      · rw [hno] at hbase
        rcases hbase with hbase | hbase <;> cases hbase
      rw [hsome, Option.some_inj, Option.some_inj] at hbase
      have hsucceeded : (rowOf block (Word.half index) e kind).succeeded = true := by
        rw [EventRecord.hasCode] at hcode
        rw [rowOf, ← Option.not_isSome, hcode]
        rfl
      have hstays : kind = base := by rw [actualKind_own hbase hkind, hown, Kind.actedBy, if_pos rfl]
      refine ⟨rowOf block (Word.half index) e kind, by simp, ?_, rfl⟩
      rw [ConsensusEvent.change?, if_pos hsucceeded]
      rcases hbase with rfl | rfl <;> simp [rowOf, hstays]
    · obtain ⟨r, hr, h⟩ := exists_change hown hcode hbase he hrest
      exact ⟨r, List.mem_append_right _ hr, h⟩

/-- What the rows of a block add to the history. -/
theorem changes_of_rows {block : Nat} : ∀ {events : List EventRecord} {index : Nat} {rows : List ConsensusEvent},
    rowsFrom block index events = .ok rows →
      (rows.filterMap ConsensusEvent.change?).sum =
        ((events.filter fun e => e.isOwn = true ∧ e.hasCode = false).map fun e => net e + missed e).sum
  | [], _, _, h => by
    cases h
    rfl
  | e :: events, index, rows, h => by
    obtain ⟨row, others, hrow, hrest, rfl⟩ := rowsFrom_cons h
    have hhere := change_of_event hrow
    have hlater := changes_of_rows hrest
    have hsum : ((row.toList ++ others).filterMap ConsensusEvent.change?).sum =
        (row.bind ConsensusEvent.change?).getD 0 + (others.filterMap ConsensusEvent.change?).sum := by
      rcases row with _ | r
      · simp
      · rcases hc : r.change? with _ | d <;> simp [hc]
    rw [hsum, hhere, hlater, List.filter_cons]
    by_cases hown : e.isOwn = true ∧ e.hasCode = false <;> simp [hown]

end Stake

namespace ConsensusChain

variable {chain : ConsensusChain} {h : Nat}

/-- **What is due at a height**: what its own events without an error code are worth, successful or not. -/
theorem getD_due (hc : chain.Classified h) :
    (chain.due h).getD 0 =
      (((chain.events h).filter fun e => e.isOwn = true ∧ e.hasCode = false).map fun e =>
        Stake.net e + missed e).sum := by
  rw [due, getD_dueOf]
  exact changes_of_rows hc.rows_eq

end ConsensusChain

end StakeTrail
