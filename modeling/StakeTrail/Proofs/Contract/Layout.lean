import Mathlib
import StakeTrail.Proofs.Contract.Canonical
import StakeTrail.Proofs.Indexing.Batches

/-!
# What a log tells

Each event names its parameters (`Topic.parameters`), and its `Layout` says which of them the fields of a row show: an
address by its text, a key by the address that owns it, a word by its low twenty bytes (`Shown`). Where somebody may act
for somebody else, the layout names the principal too, and the kind is the one on behalf unless both have one text
(`Notice.Tells`).

**The main statement** (`notices_recovered`): a log that carries a notice becomes a row that tells it, whatever the
parameters and however topic and data are spelled, and a log is passed over only if it was removed, has no topics, or has
a first topic of no event.
-/

namespace StakeTrail.Contract

open Staking

/-! ## Layouts -/

/-- The names of the parameters, in order. -/
def Topic.parameters : Topic → List String
  | createValidator =>
    ["validatorCmpPubkey", "moniker", "stakeAmount", "commissionRate", "maxCommissionRate", "maxCommissionChangeRate",
      "supportsUnlocked", "operatorAddress", "data"]
  | setWithdrawalAddress | setRewardAddress => ["delegator", "executionAddress"]
  | updateValidatorCommission => ["validatorCmpPubkey", "commissionRate"]
  | deposit =>
    ["delegator", "validatorCmpPubkey", "stakeAmount", "stakingPeriod", "delegationId", "operatorAddress", "data"]
  | redelegate =>
    ["delegator", "validatorSrcCmpPubkey", "validatorDstCmpPubkey", "delegationId", "operatorAddress", "amount"]
  | withdraw => ["delegator", "validatorCmpPubkey", "stakeAmount", "delegationId", "operatorAddress", "data"]
  | unjail => ["unjailer", "validatorCmpPubkey", "data"]
  | setOperator => ["delegator", "operator"]
  | unsetOperator => ["delegator"]

/-- **Which parameters the fields of a row show.** -/
structure Layout where
  /-- The kind when the principal acts. -/
  kind : Kind
  /-- Who acts. -/
  actor : String
  /-- For whom, where that may be somebody else. -/
  principal : Option String := none
  source : Option String := none
  target : Option String := none
  targetAddress : Option String := none

/-- The layout of an event. -/
def Topic.layout : Topic → Layout
  | createValidator =>
    { kind := .createValidator, actor := "operatorAddress", target := some "operatorAddress" }
  | setWithdrawalAddress =>
    { kind := .setWithdrawalAddress, actor := "delegator", targetAddress := some "executionAddress" }
  | setRewardAddress =>
    { kind := .setRewardAddress, actor := "delegator", targetAddress := some "executionAddress" }
  | updateValidatorCommission => { kind := .updateValidatorCommission, actor := "validatorCmpPubkey" }
  | deposit =>
    { kind := .stake, actor := "operatorAddress", principal := some "delegator", target := some "validatorCmpPubkey" }
  | redelegate =>
    { kind := .redelegate, actor := "operatorAddress", principal := some "delegator",
      source := some "validatorSrcCmpPubkey", target := some "validatorDstCmpPubkey" }
  | withdraw =>
    { kind := .unstake, actor := "operatorAddress", principal := some "delegator", target := some "validatorCmpPubkey" }
  | unjail =>
    { kind := .unjail, actor := "unjailer", principal := some "validatorCmpPubkey", target := some "validatorCmpPubkey" }
  | setOperator => { kind := .setOperator, actor := "delegator", targetAddress := some "operator" }
  | unsetOperator => { kind := .unsetOperator, actor := "delegator" }

/-- The value of a parameter. -/
def Notice.parameter? (n : Notice) (name : String) : Option Abi.Value :=
  (n.topic.parameters.zip n.values).lookup name

/-- **How a row shows a parameter**: an address by its text, the address in a word, and the owner of a key. -/
inductive Shown : Abi.Value → String → Prop
  | address (b : Bytes) : Shown (.address b) (Address.ofBytes b)
  | word (b : Bytes) : Shown (.word b) (Address.ofBytes (b.drop 12))
  | key {key : Bytes} {owner : String} : Address.ofKey key = .ok owner → Shown (.bytes key) owner

/-- A text shows the parameter of a notice that is named, and is empty if none is. -/
def Notice.Shows (n : Notice) (name? : Option String) (text : String) : Prop :=
  match name? with
  | none => text = ""
  | some name => ∃ v, n.parameter? name = some v ∧ Shown v text

/-- **A row tells a notice**: its fields show the parameters that the layout names, and it is of the kind on behalf
just if the actor is not the principal. -/
structure Notice.Tells (n : Notice) (row : ExecutionEvent) : Prop where
  address : n.Shows (some n.topic.layout.actor) row.address
  source : n.Shows n.topic.layout.source row.source
  target : n.Shows n.topic.layout.target row.target
  targetAddress : n.Shows n.topic.layout.targetAddress row.targetAddress
  own : n.topic.layout.principal = none → row.kind = n.topic.layout.kind
  acted : ∀ name, n.topic.layout.principal = some name → ∃ text, n.Shows (some name) text ∧
    (row.kind = n.topic.layout.kind ↔ row.address = text) ∧
    (n.topic.layout.kind.onBehalf? = some row.kind ↔ row.address ≠ text)

/-- The keys in a notice are owned by addresses. The row of a new validator does not show its key. -/
def Notice.Owned : Notice → Prop
  | .updateValidatorCommission key _ | .deposit _ key .. | .withdraw _ key .. | .unjail _ key _ =>
    ∃ owner, Address.ofKey key = .ok owner
  | .redelegate _ source target .. => (∃ owner, Address.ofKey source = .ok owner) ∧ ∃ owner, Address.ofKey target = .ok owner
  | _ => True

/-! ## Notices -/

variable {n : Notice}

/-- Where somebody may act for somebody else, the two kinds tell who acts. -/
theorem Topic.layout_acted {t : Topic} {name : String} (h : t.layout.principal = some name) (own : Bool) :
    (t.layout.kind.actedBy own = t.layout.kind ↔ own = true) ∧
      (t.layout.kind.onBehalf? = some (t.layout.kind.actedBy own) ↔ own = false) := by
  cases t <;> first | cases h; cases own <;> decide | cases h

/-- The kind of a row, for the principal that the layout names. -/
theorem acted_of {row : ExecutionEvent} {name text : String} (hname : n.topic.layout.principal = some name)
    (hshows : n.Shows (some name) text) (hkind : row.kind = n.topic.layout.kind.actedBy (row.address == text)) :
    ∀ name', n.topic.layout.principal = some name' → ∃ text, n.Shows (some name') text ∧
      (row.kind = n.topic.layout.kind ↔ row.address = text) ∧
      (n.topic.layout.kind.onBehalf? = some row.kind ↔ row.address ≠ text) := by
  intro name' hname'
  obtain rfl : name = name' := Option.some.inj (hname.symm.trans hname')
  obtain ⟨hown, hother⟩ := Topic.layout_acted hname (row.address == text)
  refine ⟨text, hshows, ?_, ?_⟩
  · rw [hkind, hown, beq_iff_eq]
  · rw [hkind, hother, beq_eq_false_iff_ne]

/-- Addresses are compared as their texts are. -/
theorem ofBytes_beq (a b : Bytes) : (a == b) = (Address.ofBytes a == Address.ofBytes b) := by
  rw [Bool.eq_iff_iff, beq_iff_eq, beq_iff_eq]
  exact ⟨fun h => by rw [h], Address.ofBytes_injective⟩

/-- **A notice has an account**, and the row of the account tells the notice. -/
theorem account_tells (h : n.Owned) (log : LogRecord) :
    ∃ account, n.account = .ok account ∧ n.Tells (rowFor log account) := by
  cases n with
  | createValidator key moniker amount rate maxRate maxChange unlocked operator data =>
    exact ⟨_, rfl, ⟨_, rfl, .address operator⟩, rfl, ⟨_, rfl, .address operator⟩, rfl, fun _ => rfl, nofun⟩
  | setWithdrawalAddress delegator target =>
    exact ⟨_, rfl, ⟨_, rfl, .address delegator⟩, rfl, rfl, ⟨_, rfl, .word target⟩, fun _ => rfl, nofun⟩
  | setRewardAddress delegator target =>
    exact ⟨_, rfl, ⟨_, rfl, .address delegator⟩, rfl, rfl, ⟨_, rfl, .word target⟩, fun _ => rfl, nofun⟩
  | setOperator delegator operator =>
    exact ⟨_, rfl, ⟨_, rfl, .address delegator⟩, rfl, rfl, ⟨_, rfl, .address operator⟩, fun _ => rfl, nofun⟩
  | unsetOperator delegator =>
    exact ⟨_, rfl, ⟨_, rfl, .address delegator⟩, rfl, rfl, rfl, fun _ => rfl, nofun⟩
  | updateValidatorCommission key rate =>
    obtain ⟨owner, howner⟩ := h
    simp only [Notice.account, howner, bind, Except.bind]
    exact ⟨_, rfl, ⟨_, rfl, .key howner⟩, rfl, rfl, rfl, fun _ => rfl, nofun⟩
  | deposit delegator key amount period delegation operator data =>
    obtain ⟨owner, howner⟩ := h
    simp only [Notice.account, howner, bind, Except.bind, ofBytes_beq]
    exact ⟨_, rfl, ⟨_, rfl, .address operator⟩, rfl, ⟨_, rfl, .key howner⟩, rfl, nofun,
      acted_of rfl ⟨_, rfl, .address delegator⟩ rfl⟩
  | redelegate delegator source target delegation operator amount =>
    obtain ⟨⟨sourceOwner, hsource⟩, targetOwner, htarget⟩ := h
    simp only [Notice.account, hsource, htarget, bind, Except.bind, ofBytes_beq]
    exact ⟨_, rfl, ⟨_, rfl, .address operator⟩, ⟨_, rfl, .key hsource⟩, ⟨_, rfl, .key htarget⟩, rfl, nofun,
      acted_of rfl ⟨_, rfl, .address delegator⟩ rfl⟩
  | withdraw delegator key amount delegation operator data =>
    obtain ⟨owner, howner⟩ := h
    simp only [Notice.account, howner, bind, Except.bind, ofBytes_beq]
    exact ⟨_, rfl, ⟨_, rfl, .address operator⟩, rfl, ⟨_, rfl, .key howner⟩, rfl, nofun,
      acted_of rfl ⟨_, rfl, .address delegator⟩ rfl⟩
  | unjail unjailer key data =>
    obtain ⟨owner, howner⟩ := h
    simp only [Notice.account, howner, bind, Except.bind]
    exact ⟨_, rfl, ⟨_, rfl, .address unjailer⟩, rfl, ⟨_, rfl, .key howner⟩, rfl, nofun,
      acted_of rfl ⟨_, rfl, .key howner⟩ rfl⟩

/-! ## Logs without a row -/

/-- The first topics that are subscribed to. -/
def subscribed : List Bytes := Topic.all.map Topic.hash

theorem ofHash?_eq_none {bytes : Bytes} : Topic.ofHash? bytes = none ↔ bytes ∉ subscribed := by
  rw [Option.eq_none_iff_forall_ne_some, subscribed, List.mem_map]
  constructor
  · rintro hno ⟨t, -, rfl⟩
    exact hno t (Topic.ofHash?_eq_some.mpr rfl)
  · intro hno t ht
    exact hno ⟨t, Topic.mem_all t, (Topic.ofHash?_eq_some.mp ht).symm⟩

theorem mapM_topicBytes_ne_nil {text : String} {texts : List String} : (text :: texts).mapM topicBytes ≠ .ok [] := by
  rw [List.mapM_cons]
  rcases topicBytes text with e | topic
  · nofun
  · rcases texts.mapM topicBytes with e | topics <;> nofun

/-- **A log is passed over** only if it was removed, or it has no first topic that is subscribed to. A log with a
subscribed topic becomes a row or a fault. -/
theorem rowOfLog_eq_none {log : LogRecord} : rowOfLog log = .ok none ↔
    log.removed = true ∨ log.topics = [] ∨
      ∃ topic others data, log.topics.mapM topicBytes = .ok (topic :: others) ∧ dataBytes log.data = .ok data ∧
        topic ∉ subscribed := by
  unfold rowOfLog
  by_cases hremoved : log.removed = true
  · simp [hremoved]
  rw [if_neg hremoved]
  rcases hlist : log.topics with _ | ⟨text, texts⟩
  · simp [List.mapM_nil, bind, Except.bind, pure, Except.pure]
  -- there is a first topic, so only the last way is left
  simp only [hremoved, false_or, reduceCtorEq]
  rcases hread : (text :: texts).mapM topicBytes with e | _ | ⟨topic, others⟩
  · simp [bind, Except.bind]
  · exact absurd hread mapM_topicBytes_ne_nil
  rcases hdata : dataBytes log.data with e | data
  · simp [bind, Except.bind]
  rcases ht : Topic.ofHash? topic with _ | t
  · simp [bind, Except.bind, ht, ← ofHash?_eq_none]
  · rcases hn : noticeOf t data with e | notice
    · simp [bind, Except.bind, ht, hn, ← ofHash?_eq_none]
    · rcases ha : notice.account with e | account <;> simp [bind, Except.bind, ht, hn, ha, ← ofHash?_eq_none]

/-! ## Notices are recovered -/

/-- **Decoding undoes the encoding of notices.** A log that carries a notice, whose keys are owned, becomes a row that
tells the notice and keeps block, index and transaction of the log. Conversely, a log is passed over only if it was
removed, has no topics, or has a first topic of none of the events. -/
theorem notices_recovered :
    (∀ (n : Notice) (log : LogRecord), n.Writable → n.Owned → log.Carries n →
      ∃ row, rowOfLog log = .ok (some row) ∧ n.Tells row ∧ row.block = log.block ∧ row.index = log.index ∧
        row.txHash = Address.normalForm log.txHash) ∧
    ∀ log : LogRecord, rowOfLog log = .ok none ↔
      log.removed = true ∨ log.topics = [] ∨
        ∃ topic others data, log.topics.mapM topicBytes = .ok (topic :: others) ∧ dataBytes log.data = .ok data ∧
          topic ∉ subscribed := by
  refine ⟨fun n log hw ho hc => ?_, fun log => rowOfLog_eq_none⟩
  obtain ⟨account, haccount, htells⟩ := account_tells ho log
  refine ⟨rowFor log account, ?_, htells, rfl, rfl, rfl⟩
  rw [rowOfLog_carried hc hw, haccount]
  rfl

/-! ### A redelegation -/

/-- The key of the point across from that of `Indexing.sole`. -/
def mirroredKey : Bytes := 0x03 :: Indexing.sole.key.drop 1

theorem mirrored_owner : Address.ofKey mirroredKey = .ok "0x80c0dbf239224071c59dd8970ab9d542e3414ab2" := by
  have hpoint : Curve.decompress mirroredKey =
      some (0x79be667ef9dcbbac55a06295ce870b07029bfcdb2dce28d959f2815b16f81798,
        0xb7c52588d95c3b9aa25b0403f1eef75702e84bb7597aabe663b82f6f04ef2777) := by decide +kernel
  have hdigest : Digest.keccak256
      (Curve.numberBytes 32 0x79be667ef9dcbbac55a06295ce870b07029bfcdb2dce28d959f2815b16f81798 ++
        Curve.numberBytes 32 0xb7c52588d95c3b9aa25b0403f1eef75702e84bb7597aabe663b82f6f04ef2777) =
      Curve.numberBytes 32 0xb8e8fc962bf5ccca6c6f73d280c0dbf239224071c59dd8970ab9d542e3414ab2 := by
    rw [Digest.keccak256_eq]
    decide +kernel
  rw [Indexing.ofKey_of_digest (by decide) hpoint hdigest]
  decide +kernel

/-- The address `0xbb…` moves a delegation of `0xaa…` from one validator to another. -/
def sampleRedelegation : Notice :=
  .redelegate (List.replicate 20 0xaa) mirroredKey Indexing.sole.key 3 (List.replicate 20 0xbb) 5

/-- Its log, with a topic in capitals and data without `0x`. -/
def sampleRedelegationLog : LogRecord where
  address := predeployed
  topics := ["0X08132C654EA3DF406DA083159E0FA3B4D3B8738BB81FC2DCCEFB22757868A122"]
  data := Text.Hex.encode sampleRedelegation.encode
  block := 7
  txHash := "F1"
  index := 2
  removed := false

/-- The row names both validators by the addresses of their keys, and tells who acted for whom. -/
theorem sampleRedelegation_recovered : ∃ row, rowOfLog sampleRedelegationLog = .ok (some row) ∧
    Address.ofKey mirroredKey = .ok row.source ∧ row.source = "0x80c0dbf239224071c59dd8970ab9d542e3414ab2" ∧
    Address.ofKey Indexing.sole.key = .ok row.target ∧ row.target = "0x7e5f4552091a69125d5dfcb7b8c2659029395bdf" ∧
    row.kind = .redelegateOnBehalf ∧ row.block = 7 ∧ row.txHash = "0xf1" := by
  have hw : sampleRedelegation.Writable := ⟨by decide +kernel, by decide +kernel⟩
  have hc : sampleRedelegationLog.Carries sampleRedelegation := by
    refine ⟨rfl, ⟨_, rfl, "0X", by simp,
      "08132C654EA3DF406DA083159E0FA3B4D3B8738BB81FC2DCCEFB22757868A122".toList, ?_, by decide +kernel⟩,
      "", by simp, _, Text.Hex.spells_encodeChars _, String.toList_ofList⟩
    show List.map Char.toLower _ = Text.Hex.encodeChars Topic.redelegate.hash
    rw [Topic.hash_eq]
    decide +kernel
  obtain ⟨row, hrow, htells, hblock, -, htxHash⟩ :=
    notices_recovered.1 sampleRedelegation sampleRedelegationLog hw ⟨⟨_, mirrored_owner⟩, _, Indexing.sole_owner⟩ hc
  have howner : ∀ {key text}, Shown (.bytes key) text → Address.ofKey key = .ok text := by
    rintro key text ⟨⟩
    assumption
  obtain ⟨_, ⟨⟩, hactor⟩ := htells.address
  obtain ⟨_, ⟨⟩, hshown⟩ := htells.source
  obtain ⟨_, ⟨⟩, hshown'⟩ := htells.target
  obtain ⟨_, ⟨_, ⟨⟩, hprincipal⟩, -, hother⟩ := htells.acted "delegator" rfl
  have hsource := howner hshown
  have htarget := howner hshown'
  refine ⟨row, hrow, hsource, Except.ok.inj (hsource.symm.trans mirrored_owner), htarget,
    Except.ok.inj (htarget.symm.trans Indexing.sole_owner), ?_, hblock, ?_⟩
  · refine (Option.some.inj (hother.mpr ?_)).symm
    generalize row.address = text at hactor ⊢
    cases hactor
    cases hprincipal
    exact fun h => absurd (Address.ofBytes_injective h) (by decide)
  · rw [htxHash]
    decide +kernel

end StakeTrail.Contract
