import Mathlib
import StakeTrail.Proofs.Staking.Kinds
import StakeTrail.Proofs.Traversal
import StakeTrail.Word

/-!
# All events of a block or none

An event is recognised by its type (`Names`). What it says is the last attribute of a name (`EventRecord.Says`), and
some kinds need to be told for whom the operation is carried out and who sent it (`Complete`); an event that does not
tell has a `Flaw`. `RowOf` is what becomes of an event that does.

**The main statement** (`rowsOfBlock_verdict`): a block is classified just if all its recognised events are complete,
and then each of them has its row, at its place in the whole list; otherwise the first flaw is all that comes of it.
-/

namespace StakeTrail

/-! ## What an event says -/

namespace EventRecord

variable {event : EventRecord} {key value : String}

/-- **The last attribute with a key has a value.** -/
def Says (event : EventRecord) (key value : String) : Prop :=
  ∃ front back, event.attributes = front ++ ⟨key, value⟩ :: back ∧ ∀ a ∈ back, a.key ≠ key

/-- No attribute has the key. -/
def Omits (event : EventRecord) (key : String) : Prop := ∀ a ∈ event.attributes, a.key ≠ key

/-- What an event says under a key, or the empty text. -/
def Shows (event : EventRecord) (key text : String) : Prop := event.Says key text ∨ event.Omits key ∧ text = ""

theorem get?_eq_some : event.get? key = some value ↔ event.Says key value := by
  unfold get? Says
  rw [Option.map_eq_some_iff]
  simp only [List.find?_eq_some_iff_append, beq_iff_eq, Bool.not_eq_true', beq_eq_false_iff_ne]
  constructor
  · rintro ⟨⟨k, v⟩, ⟨rfl, front, back, hrev, hfront⟩, rfl⟩
    refine ⟨back.reverse, front.reverse, ?_, fun a ha => hfront a (List.mem_reverse.mp ha)⟩
    simpa using congrArg List.reverse hrev
  · rintro ⟨front, back, hattributes, hback⟩
    refine ⟨⟨key, value⟩, ⟨rfl, back.reverse, front.reverse, ?_, fun a ha => hback a (List.mem_reverse.mp ha)⟩, rfl⟩
    simp [hattributes]

theorem get?_eq_none : event.get? key = none ↔ event.Omits key := by
  simp [get?, Omits]

theorem says_or_omits (event : EventRecord) (key : String) : (∃ value, event.Says key value) ∨ event.Omits key := by
  rcases h : event.get? key with _ | value
  · exact .inr (get?_eq_none.mp h)
  · exact .inl ⟨value, get?_eq_some.mp h⟩

theorem Says.unique {other : String} (h : event.Says key value) (h' : event.Says key other) : value = other :=
  Option.some.inj ((get?_eq_some.mpr h).symm.trans (get?_eq_some.mpr h'))

theorem shows_getD : event.Shows key ((event.get? key).getD "") := by
  rcases h : event.get? key with _ | value
  · exact .inr ⟨get?_eq_none.mp h, rfl⟩
  · exact .inl (get?_eq_some.mp h)

end EventRecord

namespace Staking

variable {event : EventRecord} {base kind : Kind} {block index : Nat} {f : Fault}

/-! ## Recognised events -/

/-- **The type of an event names an operation**: its name with either ending. -/
def Names (type : String) (base : Kind) : Prop :=
  ∃ name, (name, base) ∈ Classify.bases ∧ (type = name ++ "_success" ∨ type = name ++ "_failure")

/-- The type of an event names some operation. -/
def Recognised (type : String) : Prop :=
  ∃ entry ∈ Classify.bases, type = entry.1 ++ "_success" ∨ type = entry.1 ++ "_failure"

instance (type : String) : Decidable (Recognised type) := inferInstanceAs (Decidable (∃ entry ∈ Classify.bases, _))

theorem baseKind?_iff {type : String} : Classify.baseKind? type = some base ↔ Names type base := by
  constructor
  · intro h
    have hentry : ∃ name, (name, base) ∈ Classify.bases := by
      unfold Classify.baseKind? at h
      obtain ⟨_, -, hfind⟩ := Option.bind_eq_some_iff.mp h
      obtain ⟨found, hfound, rfl⟩ := Option.map_eq_some_iff.mp hfind
      exact ⟨found.1, List.mem_of_find?_eq_some hfound⟩
    obtain ⟨name, hname⟩ := hentry
    exact ⟨name, hname, (Classify.baseKind?_eq_some hname).mp h⟩
  · rintro ⟨name, hname, htype⟩
    exact (Classify.baseKind?_eq_some hname).mpr htype

theorem Names.recognised {type : String} (h : Names type base) : Recognised type := by
  obtain ⟨name, hname, htype⟩ := h
  exact ⟨(name, base), hname, htype⟩

theorem not_recognised {type : String} (h : Classify.baseKind? type = none) : ¬Recognised type := by
  rintro ⟨⟨name, base⟩, hname, htype⟩
  rw [(Classify.baseKind?_eq_some hname).mpr htype] at h
  cases h

/-! ## What a kind needs -/

/-- The kinds that are carried out for a delegator. -/
def Delegates (base : Kind) : Prop := base = .stake ∨ base = .redelegate ∨ base = .unstake

/-- **For whom an operation is carried out**: the delegator, or the owner of the validator's key. -/
inductive Principal (event : EventRecord) : Kind → String → Prop
  | delegator {base : Kind} {text : String} (hbase : Delegates base) (h : event.Says "delegator_addr" text) :
    Principal event base text
  | owner {key text : String} (hkey : event.Says "validator_cmp_pubkey" key) (h : Address.ofKeyText key = .ok text) :
    Principal event .unjail text

/-- **An event has the attributes that its kind needs.** -/
structure Complete (event : EventRecord) (base : Kind) : Prop where
  delegator : Delegates base → ∃ text, event.Says "delegator_addr" text
  key : base = .unjail → ∃ key owner, event.Says "validator_cmp_pubkey" key ∧ Address.ofKeyText key = .ok owner
  sender : Delegates base ∨ base = .unjail → ∃ text, event.Says "sender_address" text

/-- **What an event lacks**, and the fault that says so. The sender is missed last. -/
inductive Flaw (event : EventRecord) : Kind → Fault → Prop
  | delegator {base : Kind} (hbase : Delegates base) (h : event.Omits "delegator_addr") :
    Flaw event base (.missingAttribute base.name "delegator_addr")
  | key (h : event.Omits "validator_cmp_pubkey") :
    Flaw event .unjail (.missingAttribute Kind.unjail.name "validator_cmp_pubkey")
  | unreadable {key : String} {f : Fault} (hkey : event.Says "validator_cmp_pubkey" key)
    (h : Address.ofKeyText key = .error f) : Flaw event .unjail f
  | sender {base : Kind} {text : String} (hprincipal : Principal event base text) (h : event.Omits "sender_address") :
    Flaw event base (.missingAttribute base.name "sender_address")

/-- **The kind under which an event is stored**: the one on behalf just if sender and principal are different
addresses. -/
structure Acted (event : EventRecord) (base kind : Kind) : Prop where
  form : kind = base ∨ base.onBehalf? = some kind
  onBehalf : base.onBehalf? = some kind ↔ ∃ principal sender, Principal event base principal ∧
    event.Says "sender_address" sender ∧ Address.normalForm principal ≠ Address.normalForm sender

theorem onBehalf?_eq_none : base.onBehalf? = none ↔ ¬(Delegates base ∨ base = .unjail) := by
  unfold Delegates
  cases base <;> simp [Kind.onBehalf?]

theorem Principal.needed {text : String} (h : Principal event base text) : Delegates base ∨ base = .unjail := by
  cases h with
  | delegator hbase => exact .inl hbase
  | owner => exact .inr rfl

theorem Principal.unique {text other : String} (h : Principal event base text) (h' : Principal event base other) :
    text = other := by
  cases h with
  | delegator hbase h =>
    cases h' with
    | delegator _ h' => exact h.unique h'
    | owner => rcases hbase with hbase | hbase | hbase <;> cases hbase
  | owner hkey h =>
    cases h' with
    | delegator hbase => rcases hbase with hbase | hbase | hbase <;> cases hbase
    | owner hkey' h' =>
      obtain rfl := hkey.unique hkey'
      exact Except.ok.inj (h.symm.trans h')

/-- **Every event is complete or has a flaw.** -/
theorem complete_or_flaw (event : EventRecord) (base : Kind) : Complete event base ∨ ∃ f, Flaw event base f := by
  have hsender : ∀ {text}, Principal event base text →
      (∃ sender, event.Says "sender_address" sender) ∨ ∃ f, Flaw event base f := fun hp =>
    (event.says_or_omits "sender_address").imp_right fun homits => ⟨_, .sender hp homits⟩
  by_cases hdelegates : Delegates base
  · rcases event.says_or_omits "delegator_addr" with ⟨text, hsays⟩ | homits
    · refine (hsender (.delegator hdelegates hsays)).imp_left fun hsender =>
        ⟨fun _ => ⟨text, hsays⟩, ?_, fun _ => hsender⟩
      rintro rfl
      rcases hdelegates with h | h | h <;> cases h
    · exact .inr ⟨_, .delegator hdelegates homits⟩
  · by_cases hunjail : base = .unjail
    · subst hunjail
      rcases event.says_or_omits "validator_cmp_pubkey" with ⟨key, hsays⟩ | homits
      · rcases hkey : Address.ofKeyText key with f | owner
        · exact .inr ⟨f, .unreadable hsays hkey⟩
        · refine (hsender (.owner hsays hkey)).imp_left fun hsender =>
            ⟨?_, fun _ => ⟨key, owner, hsays, hkey⟩, fun _ => hsender⟩
          intro h
          exact absurd h hdelegates
      · exact .inr ⟨_, .key homits⟩
    · have hneither : ¬(Delegates base ∨ base = .unjail) := not_or.mpr ⟨hdelegates, hunjail⟩
      exact .inl ⟨fun h => absurd h hdelegates, fun h => absurd h hunjail, fun h => absurd h hneither⟩

/-! ## What becomes of an event -/

open Classify

theorem needed_of_says {key value : String} (h : event.Says key value) : needed event base key = .ok value := by
  rw [needed, EventRecord.get?_eq_some.mpr h]

theorem needed_of_omits {key : String} (h : event.Omits key) :
    needed event base key = .error (.missingAttribute base.name key) := by
  rw [needed, EventRecord.get?_eq_none.mpr h]

theorem principal?_of_delegates (h : Delegates base) :
    principal? event base = (needed event base "delegator_addr").map some := by
  rcases h with rfl | rfl | rfl <;> rfl

theorem principal?_unjail : principal? event .unjail = (do
    let key ← needed event .unjail "validator_cmp_pubkey"
    (Address.ofKeyText key).map some) := rfl

theorem Principal.principal?_eq {text : String} (h : Principal event base text) :
    principal? event base = .ok (some text) := by
  cases h with
  | delegator hbase h =>
    rw [principal?_of_delegates hbase, needed_of_says h]
    rfl
  | owner hkey h =>
    rw [principal?_unjail, needed_of_says hkey]
    simp [bind, Except.bind, h, Except.map]

/-- A flaw is what comes of an event that has one. -/
theorem Flaw.actualKind_eq (h : Flaw event base f) : actualKind event base = .error f := by
  cases h with
  | delegator hbase h =>
    rw [actualKind, principal?_of_delegates hbase, needed_of_omits h]
    rfl
  | key h =>
    rw [actualKind, principal?_unjail, needed_of_omits h]
    rfl
  | unreadable hkey h =>
    rw [actualKind, principal?_unjail, needed_of_says hkey]
    simp [bind, Except.bind, h, Except.map]
  | sender hprincipal h =>
    rw [actualKind, hprincipal.principal?_eq]
    simp [bind, Except.bind, needed_of_omits h]

theorem onBehalf?_actedBy (hbase : Delegates base ∨ base = .unjail) (own : Bool) :
    base.onBehalf? = some (base.actedBy own) ↔ own = false := by
  rcases hbase with (rfl | rfl | rfl) | rfl <;> cases own <;> decide

/-- A complete event has a kind. -/
theorem Complete.actualKind_eq (h : Complete event base) :
    ∃ kind, actualKind event base = .ok kind ∧ Acted event base kind := by
  by_cases hbase : Delegates base ∨ base = .unjail
  · obtain ⟨principal, hprincipal⟩ : ∃ text, Principal event base text := by
      rcases hbase with hbase | rfl
      · obtain ⟨text, hsays⟩ := h.delegator hbase
        exact ⟨text, .delegator hbase hsays⟩
      · obtain ⟨key, owner, hsays, hkey⟩ := h.key rfl
        exact ⟨owner, .owner hsays hkey⟩
    obtain ⟨sender, hsender⟩ := h.sender hbase
    have hagree : Address.agree principal sender = false ↔
        Address.normalForm principal ≠ Address.normalForm sender := by
      simp [Address.agree]
    refine ⟨base.actedBy (Address.agree principal sender), ?_, ?_, ?_⟩
    · rw [actualKind, hprincipal.principal?_eq]
      simp [bind, Except.bind, needed_of_says hsender]
    · cases Address.agree principal sender with
      | true => exact .inl rfl
      | false => exact .inr ((onBehalf?_actedBy hbase false).mpr rfl)
    · rw [onBehalf?_actedBy hbase, hagree]
      constructor
      · intro hne
        exact ⟨principal, sender, hprincipal, hsender, hne⟩
      · rintro ⟨principal', sender', hprincipal', hsender', hne⟩
        rwa [hprincipal.unique hprincipal', hsender.unique hsender']
  · have hnone := onBehalf?_eq_none.mpr hbase
    refine ⟨base, ?_, .inl rfl, ?_⟩
    · have hprincipal : principal? event base = .ok none := by
        unfold Delegates at hbase
        cases base <;> simp_all [principal?]
      rw [actualKind, hprincipal]
      rfl
    · rw [hnone]
      constructor
      · intro h
        cases h
      · rintro ⟨principal, _, hprincipal, -⟩
        exact absurd hprincipal.needed hbase

/-- **The row of an event.** -/
structure RowOf (block index : Nat) (event : EventRecord) (base : Kind) (row : ConsensusEvent) : Prop where
  block : row.block = block
  index : row.index = index
  kind : Acted event base row.kind
  /-- Whatever the ending of the type. -/
  succeeded : row.succeeded = true ↔ event.Omits "error_code"
  errorCode : event.Shows "error_code" row.errorCode
  amount : event.Shows "amount" row.amount
  txHash : ∃ text, event.Shows "tx_hash" text ∧ row.txHash = Address.normalForm text

theorem RowOf.of_acted (h : Acted event base kind) : RowOf block index event base (rowOf block index event kind) where
  block := rfl
  index := rfl
  kind := h
  succeeded := by rw [← EventRecord.get?_eq_none, rowOf, Option.isNone_iff_eq_none]
  errorCode := EventRecord.shows_getD
  amount := EventRecord.shows_getD
  txHash := ⟨_, EventRecord.shows_getD, rfl⟩

/-- **One event**: it is passed over, has its row, or has a flaw. -/
theorem rowOfEvent_cases (block index : Nat) (event : EventRecord) :
    (¬Recognised event.kind ∧ rowOfEvent block index event = .ok none) ∨
      ∃ base, Names event.kind base ∧
        ((Complete event base ∧
          ∃ row, RowOf block index event base row ∧ rowOfEvent block index event = .ok (some row)) ∨
          ∃ f, Flaw event base f ∧ rowOfEvent block index event = .error f) := by
  rcases hbase : baseKind? event.kind with _ | base
  · exact .inl ⟨not_recognised hbase, by rw [rowOfEvent, hbase]⟩
  · refine .inr ⟨base, baseKind?_iff.mp hbase, ?_⟩
    rcases complete_or_flaw event base with hcomplete | ⟨f, hf⟩
    · obtain ⟨kind, hkind, hacted⟩ := hcomplete.actualKind_eq
      refine .inl ⟨hcomplete, rowOf block index event kind, RowOf.of_acted hacted, ?_⟩
      simp only [rowOfEvent, hbase, hkind, bind, Except.bind]
      rfl
    · refine .inr ⟨f, hf, ?_⟩
      simp only [rowOfEvent, hbase, hf.actualKind_eq, bind, Except.bind]

theorem Names.unique {type : String} {other : Kind} (h : Names type base) (h' : Names type other) : base = other :=
  Option.some.inj ((baseKind?_iff.mpr h).symm.trans (baseKind?_iff.mpr h'))

theorem Complete.not_flaw (h : Complete event base) : ¬Flaw event base f := by
  intro hf
  obtain ⟨kind, hkind, -⟩ := h.actualKind_eq
  rw [hf.actualKind_eq] at hkind
  cases hkind

/-- **An event is passed over or complete.** -/
def Sound (event : EventRecord) : Prop := ∀ base, Names event.kind base → Complete event base

/-- **An event is recognised and has a flaw.** -/
def Flawed (event : EventRecord) (f : Fault) : Prop := ∃ base, Names event.kind base ∧ Flaw event base f

theorem exists_rowOfEvent : (∃ row, rowOfEvent block index event = .ok row) ↔ Sound event := by
  unfold Sound
  rcases rowOfEvent_cases block index event with ⟨hno, hrow⟩ | ⟨base, hnames, ⟨hcomplete, row, -, hrow⟩ | ⟨f, hf, hrow⟩⟩
  · simp only [hrow, Except.ok.injEq, exists_eq', true_iff]
    intro base hnames
    exact absurd hnames.recognised hno
  · simp only [hrow, Except.ok.injEq, exists_eq', true_iff]
    intro other hother
    rwa [hother.unique hnames]
  · simp only [hrow, reduceCtorEq, exists_const, false_iff, not_forall]
    exact ⟨base, hnames, fun hcomplete => hcomplete.not_flaw hf⟩

theorem rowOfEvent_eq_error : rowOfEvent block index event = .error f ↔ Flawed event f := by
  constructor
  · intro h
    rcases rowOfEvent_cases block index event with ⟨-, hrow⟩ | ⟨base, hnames, ⟨-, row, -, hrow⟩ | ⟨g, hg, hrow⟩⟩
    · rw [hrow] at h
      cases h
    · rw [hrow] at h
      cases h
    · rw [hrow] at h
      cases h
      exact ⟨base, hnames, hg⟩
  · rintro ⟨base, hnames, hf⟩
    simp only [rowOfEvent, baseKind?_iff.mpr hnames, hf.actualKind_eq, bind, Except.bind]

/-! ## All events of a block -/

theorem rowsFrom_eq (block : Nat) : ∀ {events : List EventRecord} {index : Nat},
    index + events.length ≤ Word.topHalf →
      rowsFrom block index events =
        Traversal.readAll (fun p : EventRecord × Nat => rowOfEvent block p.2 p.1) (events.zipIdx index)
  | [], _, _ => rfl
  | event :: events, index, hfew => by
    rw [List.length_cons] at hfew
    rw [rowsFrom, Word.half_of_le (by omega), rowsFrom_eq block (by omega), List.zipIdx_cons, Traversal.readAll_cons]

theorem forall_mem_zipIdx {P : EventRecord → Prop} {events : List EventRecord} {n : Nat} :
    (∀ p ∈ events.zipIdx n, P p.1) ↔ ∀ event ∈ events, P event := by
  conv_rhs => rw [← List.zipIdx_map_fst n events]
  rw [List.forall_mem_map]

/-- Events with their places are parted where the events are. -/
theorem zipIdx_parted {P Q : EventRecord → Prop} {events : List EventRecord} {n : Nat} :
    (∃ front p back, events.zipIdx n = front ++ p :: back ∧ (∀ q ∈ front, P q.1) ∧ Q p.1) ↔
      ∃ front event back, events = front ++ event :: back ∧ (∀ e ∈ front, P e) ∧ Q event := by
  constructor
  · rintro ⟨front, p, back, hparted, hfront, hp⟩
    refine ⟨front.map Prod.fst, p.1, back.map Prod.fst, ?_, by simpa using hfront, hp⟩
    have hevents := congrArg (List.map Prod.fst) hparted
    simpa using hevents
  · rintro ⟨front, event, back, rfl, hfront, hevent⟩
    rw [List.zipIdx_append, List.zipIdx_cons]
    exact ⟨_, _, _, rfl, forall_mem_zipIdx.mpr hfront, hevent⟩

/-- **All events of a block are classified, or none.** A block has rows just if every recognised event has the
attributes that its kind needs; if one has not, the first of them says what it lacks. The rows are those of the
recognised events, one for each of them and in their order, with their places in the whole list. -/
theorem rowsOfBlock_verdict (block : Nat) {events : List EventRecord} (hfew : events.length ≤ Word.topHalf) :
    ((∃ rows, rowsOfBlock block events = .ok rows) ↔ ∀ event ∈ events, Sound event) ∧
    (∀ f, rowsOfBlock block events = .error f ↔
      ∃ front event back, events = front ++ event :: back ∧ (∀ e ∈ front, Sound e) ∧ Flawed event f) ∧
    ∀ rows, rowsOfBlock block events = .ok rows →
      List.Forall₂
        (fun p row => p.2 ≤ Word.topHalf ∧ ∃ base, Names p.1.kind base ∧ RowOf block p.2 p.1 base row)
        (events.zipIdx.filter fun p => Recognised p.1.kind) rows := by
  rw [rowsOfBlock, rowsFrom_eq block (by omega)]
  refine ⟨?_, fun f => ?_, fun rows hrows => ?_⟩
  · rw [Traversal.exists_readAll_eq_ok]
    simp only [exists_rowOfEvent]
    exact forall_mem_zipIdx
  · rw [Traversal.readAll_eq_error]
    simp only [exists_rowOfEvent, rowOfEvent_eq_error]
    exact zipIdx_parted (Q := fun event => Flawed event f)
  · refine (List.forall₂_and_left _ _).mpr ⟨?_, Traversal.readAll_eq_ok ?_ ?_ hrows⟩
    · rintro ⟨event, place⟩ hp
      have hplace := (List.mem_zipIdx (List.mem_filter.mp hp).1).2.1
      change place ≤ Word.topHalf
      omega
    · intro p hrow
      rcases rowOfEvent_cases block p.2 p.1 with ⟨hno, -⟩ | ⟨base, -, ⟨-, row, -, hrow'⟩ | ⟨f, -, hrow'⟩⟩
      · exact decide_eq_false hno
      · rw [hrow] at hrow'
        cases hrow'
      · rw [hrow] at hrow'
        cases hrow'
    · intro p row hrow
      rcases rowOfEvent_cases block p.2 p.1 with ⟨-, hrow'⟩ | ⟨base, hnames, ⟨-, row', hrow', heq⟩ | ⟨f, -, hrow'⟩⟩
      · rw [hrow] at hrow'
        cases hrow'
      · rw [hrow] at heq
        cases heq
        exact ⟨decide_eq_true hnames.recognised, base, hnames, hrow'⟩
      · rw [hrow] at hrow'
        cases hrow'

/-! ### A block with a flaw at its end -/

/-- A failed delegation that names two senders, of which the last one is the delegator. -/
def sampleFailure : EventRecord :=
  (((EventRecord.ofKind "delegate_failure").push "sender_address" "bb").push "delegator_addr" "0xAA").push
    "sender_address" " aa"

/-- An undelegation that names no sender. -/
def sampleUnsent : EventRecord := (EventRecord.ofKind "undelegate_success").push "delegator_addr" "0xaa"

/-- **The delegation has the row**, and the undelegation after it takes it away. -/
theorem sampleFailure_verdict :
    (∃ row, rowsOfBlock 10 [.ofKind "transfer", sampleFailure] = .ok [row] ∧ RowOf 10 1 sampleFailure .stake row) ∧
      rowsOfBlock 10 [.ofKind "transfer", sampleFailure, sampleUnsent] =
        .error (.missingAttribute "Unstake" "sender_address") := by
  have htwo : [EventRecord.ofKind "transfer", sampleFailure].length ≤ Word.topHalf := by decide
  have hthree : [EventRecord.ofKind "transfer", sampleFailure, sampleUnsent].length ≤ Word.topHalf := by decide
  obtain ⟨hsound, -, hrows⟩ := rowsOfBlock_verdict 10 htwo
  obtain ⟨-, hflawed, -⟩ := rowsOfBlock_verdict 10 hthree
  have hread : rowsOfBlock 10 [.ofKind "transfer", sampleFailure] =
      .ok [⟨10, 1, "", .stake, true, "", ""⟩] := by cbv
  have hrecognised : ([EventRecord.ofKind "transfer", sampleFailure].zipIdx.filter fun p => Recognised p.1.kind) =
      [(sampleFailure, 1)] := by cbv
  refine ⟨⟨_, hread, ?_⟩, ?_⟩
  · have hrow := hrows _ hread
    rw [hrecognised, List.forall₂_cons] at hrow
    obtain ⟨⟨-, base, hnames, hrow⟩, -⟩ := hrow
    have hstake : Names sampleFailure.kind .stake := ⟨"delegate", by decide, .inr rfl⟩
    rwa [hnames.unique hstake] at hrow
  · rw [hflawed]
    refine ⟨[.ofKind "transfer", sampleFailure], sampleUnsent, [], rfl, hsound.mp ⟨_, hread⟩, .unstake, ?_, ?_⟩
    · exact ⟨"undelegate", by decide, .inl rfl⟩
    · have hprincipal : Principal sampleUnsent .unstake "0xaa" :=
        .delegator (.inr (.inr rfl)) ⟨[], [], rfl, by simp⟩
      exact .sender hprincipal (by unfold EventRecord.Omits; decide)

end Staking

end StakeTrail
