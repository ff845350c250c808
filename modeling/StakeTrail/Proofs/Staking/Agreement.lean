import Mathlib
import StakeTrail.Proofs.Contract.Canonical
import StakeTrail.Proofs.Indexing.Batches
import StakeTrail.Proofs.Staking.Kinds

/-!
# Both chains tag an operation alike

Four operations can be carried out for somebody else (`Errand`). The contract reports each of them by a notice
(`Errand.Told`) and the consensus chain by an event (`Errand.Reported`). One compares addresses as bytes, or the text of
one with the owner of a key; the other compares whatever an attribute spells after bringing it into normal form.

Either way the kind is the one on behalf just if somebody else than the principal acts: `Told.account_eq` for the notice,
`Reported.actualKind_eq` for the event. So both chains give the operation the same kind (`errands_agree`).
-/

namespace StakeTrail

open Staking Text

/-! ## Owners of keys -/

namespace Address

/-- **The owner of a key is an address** of twenty bytes. -/
theorem ofKey_eq {key : Bytes} {owner : String} (h : ofKey key = .ok owner) :
    ∃ bytes : Bytes, bytes.length = 20 ∧ owner = ofBytes bytes := by
  unfold ofKey at h
  split at h
  · split at h
    · refine ⟨_, ?_, (Except.ok.inj h).symm⟩
      rw [List.length_drop, Digest.length_keccak256]
    · cases h
  · cases h

end Address

namespace Staking

theorem Classify.actualKind_of {event : EventRecord} {base : Kind} {principal sender : String}
    (hprincipal : principal? event base = .ok (some principal)) (hsender : event.get? "sender_address" = some sender) :
    actualKind event base = .ok (base.actedBy (Address.agree principal sender)) := by
  simp only [actualKind, hprincipal, needed, hsender, bind, Except.bind]

/-! ## Errands -/

/-- An operation that can be carried out for somebody else. -/
inductive Errand
  | delegate
  | redelegate
  | undelegate
  | unjail
  deriving DecidableEq, Repr

namespace Errand

/-- The kind of an errand that the principal carries out. -/
def kind : Errand → Kind
  | delegate => .stake
  | redelegate => .redelegate
  | undelegate => .unstake
  | unjail => .unjail

/-- The name of an errand in the type of an event. -/
def name : Errand → String
  | delegate => "delegate"
  | redelegate => "redelegate"
  | undelegate => "undelegate"
  | unjail => "unjail"

/-- A notice tells an errand for the delegator `d` that `s` carries out on the validator with the key `key`. The
validator that a redelegation leaves has a key of its own. -/
inductive Told : Errand → (d s key : Bytes) → Contract.Notice → Prop
  | deposit {d s key data : Bytes} {amount period delegation : Nat} :
    Told .delegate d s key (.deposit d key amount period delegation s data)
  | redelegate {d s source key : Bytes} {delegation amount : Nat} (hsource : ∃ a, Address.ofKey source = .ok a) :
    Told .redelegate d s key (.redelegate d source key delegation s amount)
  | withdraw {d s key data : Bytes} {amount delegation : Nat} :
    Told .undelegate d s key (.withdraw d key amount delegation s data)
  | unjail {d s key data : Bytes} : Told .unjail d s key (.unjail s key data)

/-- An event spells the principal of an errand: the key of the validator when one is released, and the address of the
delegator otherwise. -/
def SpellsPrincipal (o : Errand) (d key : Bytes) (event : EventRecord) : Prop :=
  match o with
  | .unjail => ∃ text, event.get? "validator_cmp_pubkey" = some text ∧ Hex.SpellsAfter ["", "0x"] key text.toList
  | _ => ∃ text, event.get? "delegator_addr" = some text ∧ Address.Spelled d text

/-- An event reports an errand: its type names it, with either ending, and its attributes spell who sent it and who the
principal is. -/
structure Reported (o : Errand) (d s key : Bytes) (event : EventRecord) : Prop where
  type : event.kind = o.name ++ "_success" ∨ event.kind = o.name ++ "_failure"
  sender : ∃ text, event.get? "sender_address" = some text ∧ Address.Spelled s text
  principal : o.SpellsPrincipal d key event

/-- Somebody else than the principal acts. -/
def ByOther (o : Errand) (d s key : Bytes) : Prop :=
  match o with
  | .unjail => Address.ofKey key ≠ .ok (Address.ofBytes s)
  | _ => s ≠ d

variable {o : Errand} {d s key : Bytes}

/-- The errand is an entry of the operations. -/
theorem mem_bases (o : Errand) : (o.name, o.kind) ∈ Classify.bases := by cases o <;> decide

/-- The two forms of an errand tell whether the principal acts. -/
theorem onBehalf?_actedBy (own : Bool) : o.kind.onBehalf? = some (o.kind.actedBy own) ↔ own = false := by
  cases o <;> cases own <;> decide

theorem actedBy_eq (own : Bool) : o.kind.actedBy own = o.kind ↔ own = true := by cases o <;> cases own <;> decide

/-! ## The two chains -/

/-- **The kind of a notice**: on behalf when somebody else acts. -/
theorem Told.account_eq {n : Contract.Notice} (h : o.Told d s key n) (hkey : ∃ a, Address.ofKey key = .ok a) :
    ∃ account own, n.account = .ok account ∧ account.kind = o.kind.actedBy own ∧
      (own = true ↔ ¬o.ByOther d s key) := by
  obtain ⟨owner, howner⟩ := hkey
  have hacts : (s == d) = true ↔ ¬s ≠ d := by simp
  cases h with
  | deposit =>
    simp only [Contract.Notice.account, howner, bind, Except.bind]
    exact ⟨_, s == d, rfl, rfl, hacts⟩
  | redelegate hsource =>
    obtain ⟨other, hother⟩ := hsource
    simp only [Contract.Notice.account, howner, hother, bind, Except.bind]
    exact ⟨_, s == d, rfl, rfl, hacts⟩
  | withdraw =>
    simp only [Contract.Notice.account, howner, bind, Except.bind]
    exact ⟨_, s == d, rfl, rfl, hacts⟩
  | unjail =>
    simp only [Contract.Notice.account, howner, bind, Except.bind]
    refine ⟨_, Address.ofBytes s == owner, rfl, rfl, ?_⟩
    rw [beq_iff_eq, ByOther, not_ne_iff, howner, Except.ok.injEq]
    exact eq_comm

/-- The principal that an event is compared with is an address, and somebody else acts just if the sender is not it. -/
theorem Reported.principal?_eq {event : EventRecord} (h : o.Reported d s key event) (hd : d.length = 20)
    (hkey : ∃ a, Address.ofKey key = .ok a) :
    ∃ text bytes, Classify.principal? event o.kind = .ok (some text) ∧ Address.Spelled bytes text ∧
      bytes.length = 20 ∧ (o.ByOther d s key ↔ s ≠ bytes) := by
  have hprincipal := h.principal
  cases o with
  | unjail =>
    obtain ⟨text, htext, hspelled⟩ := hprincipal
    obtain ⟨owner, howner⟩ := hkey
    obtain ⟨bytes, hlength, rfl⟩ := Address.ofKey_eq howner
    refine ⟨Address.ofBytes bytes, bytes, ?_, Address.spelled_ofBytes bytes, hlength, ?_⟩
    · simp only [kind, Classify.principal?, Classify.needed, htext, bind, Except.bind, Address.ofKeyText_eq hspelled,
        howner]
      rfl
    · rw [ByOther, howner, Ne, Ne, Except.ok.injEq, not_iff_not]
      exact ⟨fun h => (Address.ofBytes_injective h).symm, fun h => by rw [h]⟩
  | _ =>
    obtain ⟨text, htext, hspelled⟩ := hprincipal
    refine ⟨text, d, ?_, hspelled, hd, Iff.rfl⟩
    simp only [kind, Classify.principal?, Classify.needed, htext]
    rfl

/-- **The kind of an event**: on behalf when somebody else acts, however the addresses are spelled. -/
theorem Reported.actualKind_eq {event : EventRecord} (h : o.Reported d s key event) (hd : d.length = 20)
    (hs : s.length = 20) (hkey : ∃ a, Address.ofKey key = .ok a) :
    ∃ own, Classify.actualKind event o.kind = .ok (o.kind.actedBy own) ∧ (own = true ↔ ¬o.ByOther d s key) := by
  obtain ⟨sender, hsender, hspelled⟩ := h.sender
  obtain ⟨text, bytes, hprincipal, htext, hlength, hother⟩ := h.principal?_eq hd hkey
  refine ⟨_, Classify.actualKind_of hprincipal hsender, ?_⟩
  rw [Address.agree_iff htext hspelled (List.ne_nil_of_length_eq_add_one hlength)
    (List.ne_nil_of_length_eq_add_one hs), beq_iff_eq, hother, not_ne_iff]

/-- **Both chains give an errand the same kind**: for every delegator and every sender, every key that an address owns,
and every spelling of them, the log and the event are decoded, and both to the kind on behalf just if the sender is not
the principal. -/
theorem errands_agree {n : Contract.Notice} {log : LogRecord} {event : EventRecord} (block index : Nat)
    (hd : d.length = 20) (hs : s.length = 20) (hkey : ∃ a, Address.ofKey key = .ok a) (hn : o.Told d s key n)
    (hw : n.Writable) (hlog : log.Carries n) (hevent : o.Reported d s key event) :
    ∃ told reported, Contract.rowOfLog log = .ok (some told) ∧ rowOfEvent block index event = .ok (some reported) ∧
      told.kind = reported.kind ∧ (o.kind.onBehalf? = some told.kind ↔ o.ByOther d s key) ∧
      (told.kind = o.kind ↔ ¬o.ByOther d s key) := by
  obtain ⟨account, own, haccount, hkind, hown⟩ := hn.account_eq hkey
  obtain ⟨own', hactual, hown'⟩ := hevent.actualKind_eq hd hs hkey
  have hsame : own' = own := by rw [Bool.eq_iff_iff, hown, hown']
  have hbase : Classify.baseKind? event.kind = some o.kind := (Classify.baseKind?_eq_some o.mem_bases).mpr hevent.type
  have htold : Contract.rowOfLog log = .ok (some (Contract.rowFor log account)) := by
    rw [Contract.rowOfLog_carried hlog hw, haccount]
    rfl
  have hreported : rowOfEvent block index event = .ok (some (rowOf block index event (o.kind.actedBy own))) := by
    rw [hsame] at hactual
    simp only [rowOfEvent, hbase, hactual, bind, Except.bind]
    rfl
  refine ⟨_, _, htold, hreported, hkind, ?_, ?_⟩
  · show o.kind.onBehalf? = some account.kind ↔ _
    rw [hkind, onBehalf?_actedBy, ← Bool.not_eq_true, hown, not_not]
  · show account.kind = o.kind ↔ _
    rw [hkind, actedBy_eq, hown]

/-! ## A deposit for somebody else -/

/-- A deposit of five tokens for the address `0xaa…` by the address `0xbb…`. -/
def sampleDeposit : Contract.Notice :=
  .deposit (List.replicate 20 0xaa) Indexing.sole.key 5 0 0 (List.replicate 20 0xbb) []

/-- The event of the same deposit, whose attributes are spelled in capitals and in small letters. -/
def sampleDelegation : EventRecord where
  kind := "delegate_failure"
  attributes := [
    ⟨"delegator_addr", String.ofList ([' '] ++ ('0' :: 'X' :: List.replicate 40 'A') ++ ['\n'])⟩,
    ⟨"sender_address", String.ofList (List.replicate 40 'b')⟩]

/-- Both chains tell that the deposit is made on behalf of its delegator. -/
theorem sampleDeposit_onBehalf :
    ∃ told reported, Contract.rowOfLog (Contract.logOf sampleDeposit 7 0 "0x01") = .ok (some told) ∧
      rowOfEvent 7 0 sampleDelegation = .ok (some reported) ∧ told.kind = reported.kind ∧
      told.kind = .stakeOnBehalf := by
  have hw : sampleDeposit.Writable := ⟨by decide +kernel, by decide +kernel⟩
  have hevent : delegate.Reported (List.replicate 20 0xaa) (List.replicate 20 0xbb) Indexing.sole.key
      sampleDelegation := by
    refine ⟨.inr rfl, ⟨_, rfl, ?_⟩, ⟨_, rfl, ?_⟩⟩
    · exact ⟨[], List.replicate 40 'b', [], by simp, by simp, "", by simp, List.replicate 40 'b', rfl, rfl⟩
    · exact ⟨[' '], '0' :: 'X' :: List.replicate 40 'A', ['\n'], by rw [String.toList_ofList], by simp [isBlank],
        "0X", by simp, List.replicate 40 'A', rfl, rfl⟩
  obtain ⟨told, reported, htold, hreported, hsame, honBehalf, -⟩ :=
    errands_agree 7 0 (by decide) (by decide) ⟨_, Indexing.sole_owner⟩ .deposit hw
      (Contract.logOf_carries sampleDeposit 7 0 "0x01") hevent
  refine ⟨told, reported, htold, hreported, hsame, ?_⟩
  have hother : delegate.ByOther (List.replicate 20 0xaa) (List.replicate 20 0xbb) Indexing.sole.key := by
    show List.replicate 20 (0xbb : UInt8) ≠ List.replicate 20 0xaa
    decide
  exact (Option.some.inj (honBehalf.mpr hother)).symm

end Errand

end Staking

end StakeTrail
