import Mathlib
import StakeTrail.Contract.Notice
import StakeTrail.Proofs.Digest.Numbers

/-!
# First topics

The first topics of the ten events are the digests of their signatures (`Topic.hash_eq` evaluates them). They differ
(`Topic.hash_injective`), so a first topic is looked up to the event it belongs to and to no other
(`Topic.ofHash?_eq_some`).
-/

namespace StakeTrail.Contract.Topic

/-- The first topics, as numbers. -/
def digest : Topic → Nat
  | createValidator => 0x65bfc2fa1cd4c6f50f60983ad1cf1cb4bff5ee6570428254dfce41b085ef6d14
  | setWithdrawalAddress => 0x1717e61ad5ca09c8dbe5620a60e8907a3124e59063fbcc7f71912e536511b421
  | setRewardAddress => 0x03564a99f640621f30a0be83f41fa9567acefa525e0132642d50d31c5b7d0e39
  | updateValidatorCommission => 0xd87fbe52b4b01e284c00c7b9a719018ee55b3f823bd39556a77bd14829107d72
  | deposit => 0xf3635b85ca76f364d2d87a3993c71d8461675e09f2cb9a04fba67aa22e48d916
  | redelegate => 0x08132c654ea3df406da083159e0fa3b4d3b8738bb81fc2dccefb22757868a122
  | withdraw => 0x89f97919c84baf7c0af918e2aae2581e51a70e1ce774948638769eac6b4d2d1c
  | unjail => 0x026c2e156478ec2a25ccebac97a338d301f69b6d5aeec39c578b28a95e118201
  | setOperator => 0x2709918445f306d3e94d280907c62c5d2525ac3192d2e544774c7f181d65af3e
  | unsetOperator => 0x5c6b8680e6b38b49c9b4293dc69be9b24e0ddcf054274619bb86e8e749f091a0

/-- **The digests of the signatures.** -/
theorem hash_eq (t : Topic) : t.hash = Curve.numberBytes 32 t.digest := by
  rw [hash, Digest.keccak256_eq]
  cases t <;> decide +kernel

@[simp] theorem length_hash (t : Topic) : t.hash.length = 32 := Digest.length_keccak256 _

theorem mem_all (t : Topic) : t ∈ all := by cases t <;> decide

/-- **No two events have the same first topic.** -/
theorem hash_injective : Function.Injective hash := by
  intro a b h
  have hnodup : (all.map fun t => Curve.numberBytes 32 t.digest).Nodup := by decide +kernel
  rw [hash_eq, hash_eq] at h
  exact List.inj_on_of_nodup_map hnodup (mem_all a) (mem_all b) h

/-- **A first topic belongs to one event.** -/
theorem ofHash?_eq_some {bytes : Bytes} {t : Topic} : ofHash? bytes = some t ↔ bytes = t.hash := by
  unfold ofHash? hashes
  rw [List.find?_map, Option.map_map]
  constructor
  · intro h
    obtain ⟨u, hu, rfl⟩ := Option.map_eq_some_iff.mp h
    have hsame : u.hash = bytes := by simpa using List.find?_some hu
    exact hsame.symm
  · rintro rfl
    have hfind : all.find? ((fun entry => entry.1 == t.hash) ∘ fun u => (u.hash, u)) = all.find? (· == t) := by
      congr 1
      funext u
      simp [hash_injective.eq_iff]
    rw [hfind]
    cases t <;> rfl

end StakeTrail.Contract.Topic
