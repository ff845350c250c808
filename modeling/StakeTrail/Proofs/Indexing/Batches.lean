import StakeTrail.Proofs.Chain.Roster
import StakeTrail.Proofs.Digest.Numbers
import StakeTrail.Proofs.Indexing.Sessions

/-!
# Runs of consecutive batches

`Batches` are the sessions that an indexer of a roster reaches from an empty database when it is given ranges right
after its checkpoint. Every batch has a feed and a cache of its own, and whatever fails in it, the run goes on; in
between, anything may happen that leaves the rows of the indexer and its checkpoint alone.

An invariant over checkpoints that one batch keeps (`Rolls`) holds in every such session (`Batches.stands`).
-/

namespace StakeTrail.Indexing

open StakeTrail.Action Store Session Consensus Uptime

variable {γ ρ : Type} {roster : Roster} {name : String} {indexer : ConsensusFeed → Cache γ → Indexer (Session γ)}
  {rows : Tables → ρ} {Stands : Nat → Tables → Prop}

/-- **The states of any run of consecutive batches** of an indexer with a checkpoint and a table of its own. -/
inductive Batches (roster : Roster) (name : String) (indexer : ConsensusFeed → Cache γ → Indexer (Session γ))
    (rows : Tables → ρ) : Session γ → Prop
  | empty {s : Session γ} : s.database.tables = {} → Batches roster name indexer rows s
  | range {feed : ConsensusFeed} {cache : Cache γ} {first last : Nat} {s : Session γ} :
      Batches roster name indexer rows s → feed.Lists roster → first = s.database.tables.reached name + 1 →
      first ≤ last → last < 0x80000000 → Batches roster name indexer rows ((indexer feed cache).cover first last s).2
  | elsewhere {s s' : Session γ} : Batches roster name indexer rows s →
      rows s'.database.tables = rows s.database.tables →
      s'.database.tables.reached name = s.database.tables.reached name → Batches roster name indexer rows s'

/-- **What keeps an invariant over checkpoints**: a batch right after the checkpoint moves it to its own end, or fails
at some checkpoint. -/
structure Rolls (roster : Roster) (name : String) (indexer : ConsensusFeed → Cache γ → Indexer (Session γ))
    (rows : Tables → ρ) (Stands : Nat → Tables → Prop) : Prop where
  empty : Stands 0 {}
  reached : ∀ {C t}, Stands C t → t.reached name = C
  frame : ∀ {C t u}, Stands C t → rows u = rows t → u.reached name = t.reached name → Stands C u
  batch : ∀ {C t l feed cache last}, Stands C t → feed.Lists roster → C ≤ last → last < 0x80000000 →
    Ends (At t l) ((indexer feed cache).cover (C + 1) last) (fun _ s => Stands last s.database.tables)
      fun s => ∃ C, Stands C s.database.tables

namespace Batches

/-- Setting up any checkpoint, for rows that hold no checkpoints. -/
theorem setup {s : Session γ} (h : Batches roster name indexer rows s)
    (hrows : ∀ t checkpoints, rows { t with checkpoints } = rows t) (schedule : Schedule) (other : String) :
    Batches roster name indexer rows ((Session.loop schedule).checkpoints.setup other s).2 := by
  refine ((setup_ends schedule other).mono (F := Batches roster name indexer rows) (fun _ h => h) ?_ ?_).snd
    (s := s) ⟨rfl, rfl⟩
  · rintro _ s' ⟨ht, -⟩
    refine h.elsewhere ?_ ?_
    · rw [ht]
      exact hrows _ _
    · rw [ht]
      exact reached_setup other name
  · rintro s' ⟨ht, -⟩
    exact h.elsewhere (by rw [ht]) (by rw [ht])

/-- **In any run the invariant stands** at some checkpoint. -/
theorem stands (hr : Rolls roster name indexer rows Stands) {s : Session γ}
    (h : Batches roster name indexer rows s) : ∃ C, Stands C s.database.tables := by
  induction h with
  | empty ht =>
    rw [ht]
    exact ⟨0, hr.empty⟩
  | range _ hf hfirst hle hlast ih =>
    obtain ⟨C, hs⟩ := ih
    rw [hr.reached hs] at hfirst
    subst hfirst
    exact ((hr.batch hs hf (by omega) hlast).mono (fun _ h => h) (fun _ _ h => ⟨_, h⟩) fun _ h => h).snd ⟨rfl, rfl⟩
  | elsewhere _ hrows hreached ih =>
    obtain ⟨C, hs⟩ := ih
    exact ⟨C, hr.frame hs hrows hreached⟩

end Batches

/-! ## A roster with one validator -/

/-- A validator whose key is the generator of the curve. -/
def sole : Validator where
  address := "aa"
  key := [0x02, 0x79, 0xbe, 0x66, 0x7e, 0xf9, 0xdc, 0xbb, 0xac, 0x55, 0xa0, 0x62, 0x95, 0xce, 0x87, 0x0b, 0x07,
    0x02, 0x9b, 0xfc, 0xdb, 0x2d, 0xce, 0x28, 0xd9, 0x59, 0xf2, 0x81, 0x5b, 0x16, 0xf8, 0x17, 0x98]

/-- One validator, which signs whenever it is active; it is not active at height 2. -/
def soleRoster : Roster where
  validators h := if h = 2 then [] else [sole]
  commit h := if h = 2 then [⟨.absent, ""⟩] else [⟨.commit, "AA"⟩]

/-- A feed of this roster that never fails. -/
def soleFeed : ConsensusFeed where
  head := .ok 4
  block h := .ok ⟨h, "", "", 0⟩
  events _ := .ok []
  commit h := .ok (soleRoster.commit h)
  validators h page size := .ok (soleRoster.page h page size)

theorem soleFeed_lists : soleFeed.Lists soleRoster where
  commit _ _ h := (Except.ok.inj h).symm
  page _ _ _ _ h := (Except.ok.inj h).symm

/-- The owner of a key, read off the digest of its point. -/
theorem ofKey_of_digest {key : Bytes} {x y digest : Nat} (hlength : key.length = Address.keyLength)
    (hpoint : Curve.decompress key = some (x, y))
    (hdigest : Digest.keccak256 (Curve.numberBytes 32 x ++ Curve.numberBytes 32 y) = Curve.numberBytes 32 digest) :
    Address.ofKey key = .ok (Address.ofBytes ((Curve.numberBytes 32 digest).drop 12)) := by
  rw [Address.ofKey, if_pos hlength, hpoint, ← hdigest]

theorem sole_owner : Address.ofKey sole.key = .ok "0x7e5f4552091a69125d5dfcb7b8c2659029395bdf" := by
  have hpoint : Curve.decompress sole.key =
      some (0x79be667ef9dcbbac55a06295ce870b07029bfcdb2dce28d959f2815b16f81798,
        0x483ada7726a3c4655da4fbfc0e1108a8fd17b448a68554199c47d08ffb10d4b8) := by decide +kernel
  have hdigest : Digest.keccak256
      (Curve.numberBytes 32 0x79be667ef9dcbbac55a06295ce870b07029bfcdb2dce28d959f2815b16f81798 ++
        Curve.numberBytes 32 0x483ada7726a3c4655da4fbfc0e1108a8fd17b448a68554199c47d08ffb10d4b8) =
      Curve.numberBytes 32 0xc0a6c424ac7157ae408398df7e5f4552091a69125d5dfcb7b8c2659029395bdf := by
    rw [Digest.keccak256_eq]
    decide +kernel
  rw [ofKey_of_digest (by decide) hpoint hdigest]
  decide +kernel

theorem evidence_sole {a : String} (ha : Address.ofKey sole.key = .ok a) :
    evidence soleFeed = fun h => .ok ⟨h, if h = 2 then [] else [("AA", a)], soleRoster.commit h⟩ := by
  funext h
  by_cases hh : h = 2
  · subst hh
    rfl
  · have hwalk : Feed.allValidators soleFeed h = .ok [sole] := by
      simp [Feed.allValidators, Feed.walk, soleFeed, soleRoster, Roster.page, Word.topHalf, hh, Feed.pageSize]
    have hset : ActiveSet.ofValidators [sole] = .ok [("AA", a)] := by
      simp only [ActiveSet.ofValidators, ActiveSet.extendWith, ha]
      rfl
    have hcommit : soleFeed.commit h = .ok (soleRoster.commit h) := rfl
    simp only [evidence, hwalk, hcommit, hset, bind, Except.bind, if_neg hh]

end StakeTrail.Indexing
