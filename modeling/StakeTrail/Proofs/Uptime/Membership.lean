import StakeTrail.Proofs.Chain.Roster
import StakeTrail.Proofs.Uptime.Attendance

/-!
# The members of active sets

The validator with an execution address has an `attendance` in a roster: where it is active, and how many signatures
commit to the block in its name. Of a node it is assumed (`Roster.Consistent`) that a consensus address has one public
key, that distinct consensus addresses have distinct execution addresses, and that who signs a commit is active. Then
each consensus address has one owner and each owner one address (`Owns.owner_eq`, `Owns.key_eq`), a signature counts
for the owner of the address that signs (`commits_eq`), and the active set of a height holds an address exactly when
its owner is active (`get?_ofValidators`).
-/

namespace StakeTrail

open Uptime

/-- The execution address of a validator, if its key has one. -/
def Validator.owner? (v : Validator) : Option String := (Address.ofKey v.key).toOption

namespace Roster

/-- Whether a validator with an execution address is active at a height. -/
def isActive (roster : Roster) (a : String) (h : Nat) : Bool := (roster.validators h).any fun v => v.owner? == some a

/-- Whether a signature at a height commits to the block and is by the active validator with an execution address. -/
def commits (roster : Roster) (a : String) (h : Nat) (s : Signature) : Bool :=
  s.flag == .commit &&
    (roster.validators h).any fun v => v.owner? == some a && setKey v.address == setKey s.validator

/-- The attendance of the validator with an execution address. -/
def attendance (roster : Roster) (a : String) : Attendance where
  owner := a
  active := roster.isActive a
  signed h := (roster.commit h).countP (roster.commits a h)

/-- **What a node is trusted with.** -/
structure Consistent (roster : Roster) : Prop where
  /-- A consensus address has one public key. -/
  oneKey : ∀ h k, ∀ v ∈ roster.validators h, ∀ w ∈ roster.validators k,
    setKey v.address = setKey w.address → v.key = w.key
  /-- Distinct consensus addresses have distinct execution addresses. -/
  oneAddress : ∀ h k, ∀ v ∈ roster.validators h, ∀ w ∈ roster.validators k, ∀ a,
    v.owner? = some a → w.owner? = some a → setKey v.address = setKey w.address
  /-- Who signs a commit is active at its height. -/
  signers : ∀ h, ∀ s ∈ roster.commit h, s.flag = .commit →
    ∃ v ∈ roster.validators h, setKey v.address = setKey s.validator

/-- The owner of a consensus address. -/
def Owns (roster : Roster) (k a : String) : Prop :=
  ∃ h, ∃ v ∈ roster.validators h, setKey v.address = k ∧ v.owner? = some a

variable {roster : Roster} {k l a b : String}

theorem Owns.owner_eq (hc : roster.Consistent) (ha : roster.Owns k a) (hb : roster.Owns k b) : a = b := by
  obtain ⟨h, v, hv, hvk, hva⟩ := ha
  obtain ⟨h', w, hw, hwk, hwb⟩ := hb
  have hkey := hc.oneKey h h' v hv w hw (hvk.trans hwk.symm)
  have howner : v.owner? = w.owner? := by rw [Validator.owner?, Validator.owner?, hkey]
  exact Option.some.inj (hva.symm.trans (howner.trans hwb))

theorem Owns.key_eq (hc : roster.Consistent) (hk : roster.Owns k a) (hl : roster.Owns l a) : k = l := by
  obtain ⟨h, v, hv, rfl, hva⟩ := hk
  obtain ⟨h', w, hw, rfl, hwa⟩ := hl
  exact hc.oneAddress h h' v hv w hw a hva hwa

theorem isActive_iff {h : Nat} : roster.isActive a h = true ↔ ∃ v ∈ roster.validators h, v.owner? = some a := by
  simp [isActive]

/-- A signature counts for the owner of the address that signs. -/
theorem commits_eq (hc : roster.Consistent) (hk : roster.Owns k a) {h : Nat} {s : Signature}
    (hs : s ∈ roster.commit h) : roster.commits a h s = (s.flag == .commit && setKey s.validator == k) := by
  by_cases hflag : s.flag = .commit
  · rw [commits, hflag, Bool.eq_iff_iff]
    simp only [beq_self_eq_true, Bool.true_and, List.any_eq_true, Bool.and_eq_true, beq_iff_eq]
    constructor
    · rintro ⟨v, hv, hva, hvs⟩
      exact hvs ▸ Owns.key_eq hc ⟨h, v, hv, rfl, hva⟩ hk
    · rintro rfl
      obtain ⟨v, hv, hvs⟩ := hc.signers h s hs hflag
      obtain ⟨h', w, hw, hwk, hwa⟩ := hk
      have hkey := hc.oneKey h h' v hv w hw (hvs.trans hwk.symm)
      refine ⟨v, hv, ?_, hvs⟩
      rw [Validator.owner?, hkey]
      exact hwa
  · have hne : (s.flag == VoteFlag.commit) = false := by simpa using hflag
    rw [commits, hne, Bool.false_and, Bool.false_and]

end Roster

/-! ## Active sets -/

namespace Uptime.ActiveSet

/-- The entries of a set that is continued: those of the validators, and the earlier ones. -/
theorem extendWith_mem : ∀ {vs : List Validator} {set set' : ActiveSet}, extendWith set vs = .ok set' →
    ∀ p ∈ set', p ∈ set ∨ ∃ v ∈ vs, setKey v.address = p.1 ∧ v.owner? = some p.2
  | [], _, _, h => by
    cases h
    exact fun _ hp => .inl hp
  | v :: vs, set, set', h => by
    rw [extendWith] at h
    rcases ho : Address.ofKey v.key with e | owner <;> rw [ho] at h
    · cases h
    intro p hp
    rcases extendWith_mem h p hp with hmem | ⟨w, hw, hpw⟩
    · rcases Keyed.mem_put hmem with rfl | hmem
      · exact .inr ⟨v, List.mem_cons_self, rfl, by simp [Validator.owner?, ho, Except.toOption]⟩
      · exact .inl hmem
    · exact .inr ⟨w, List.mem_cons_of_mem _ hw, hpw⟩

theorem extendWith_nodup : ∀ {vs : List Validator} {set set' : ActiveSet}, extendWith set vs = .ok set' →
    (set.map Prod.fst).Nodup → (set'.map Prod.fst).Nodup
  | [], _, _, h, hn => by
    cases h
    exact hn
  | v :: vs, set, set', h, hn => by
    rw [extendWith] at h
    rcases ho : Address.ofKey v.key with e | owner <;> rw [ho] at h
    · cases h
    exact extendWith_nodup h (Keyed.nodup_put _ hn)

/-- No key is lost, and each validator gets an entry. -/
theorem extendWith_isSome : ∀ {vs : List Validator} {set set' : ActiveSet}, extendWith set vs = .ok set' →
    ∀ k, (Keyed.get? Prod.fst k set).isSome ∨ (∃ v ∈ vs, setKey v.address = k) → (Keyed.get? Prod.fst k set').isSome
  | [], _, _, h, k, hk => by
    cases h
    simpa using hk
  | v :: vs, set, set', h, k, hk => by
    rw [extendWith] at h
    rcases ho : Address.ofKey v.key with e | owner <;> rw [ho] at h
    · cases h
    refine extendWith_isSome h k ?_
    rw [Keyed.get?_put]
    by_cases hv : setKey v.address = k
    · exact .inl (by simp [hv])
    · rcases hk with hk | ⟨w, hw, hwk⟩
      · exact .inl (by simpa [hv] using hk)
      · rcases List.mem_cons.mp hw with rfl | hw
        · exact absurd hwk hv
        · exact .inr ⟨w, hw, hwk⟩

variable {roster : Roster} {h : Nat} {set : ActiveSet}

theorem nodup_ofValidators {vs : List Validator} (hs : ofValidators vs = .ok set) : (set.map Prod.fst).Nodup :=
  extendWith_nodup hs List.nodup_nil

/-- **What a set holds under the key of an owner**: the owner, where it is active. -/
theorem get?_ofValidators (hc : roster.Consistent) (hs : ofValidators (roster.validators h) = .ok set) {k a : String}
    (hk : roster.Owns k a) :
    Keyed.get? Prod.fst k set = if roster.isActive a h then some (k, a) else none := by
  have howns : ∀ p ∈ set, roster.Owns p.1 p.2 := by
    intro p hp
    rcases extendWith_mem hs p hp with hp | ⟨v, hv, hvp⟩
    · cases hp
    · exact ⟨h, v, hv, hvp⟩
  cases hact : roster.isActive a h with
  | true =>
    obtain ⟨v, hv, hva⟩ := Roster.isActive_iff.mp hact
    have hvk : setKey v.address = k := Roster.Owns.key_eq hc ⟨h, v, hv, rfl, hva⟩ hk
    obtain ⟨⟨l, b⟩, hp⟩ := Option.isSome_iff_exists.mp (extendWith_isSome hs k (.inr ⟨v, hv, hvk⟩))
    have hl : l = k := Keyed.key_of_get? hp
    subst hl
    have hb : b = a := Roster.Owns.owner_eq hc (howns _ (Keyed.mem_of_get? hp)) hk
    rw [hp, hb, if_pos rfl]
  | false =>
    rw [if_neg Bool.false_ne_true]
    by_contra hne
    obtain ⟨⟨l, b⟩, hp⟩ := Option.ne_none_iff_exists'.mp hne
    have hl : l = k := Keyed.key_of_get? hp
    subst hl
    rcases extendWith_mem hs _ (Keyed.mem_of_get? hp) with hnil | ⟨v, hv, hvl, hvb⟩
    · cases hnil
    · have hb : b = a := Roster.Owns.owner_eq hc ⟨h, v, hv, hvl, hvb⟩ hk
      have : roster.isActive a h = true := Roster.isActive_iff.mpr ⟨v, hv, hb ▸ hvb⟩
      rw [hact] at this
      cases this

end Uptime.ActiveSet

end StakeTrail
