import StakeTrail.Indexing.Fleet
import StakeTrail.Proofs.Ends

/-!
# Loops that take turns

The loops of a fleet share one state, and a range that a loop has found may have to wait while the others go on. A
`Pact` is what they rely on: an invariant, how the state may move on, and which ranges an indexer may work off. What may
be worked off may still be worked off later.

If every indexer keeps the pact in its own turns (`Pact.Kept`), the fleet keeps it in any sequence of turns
(`Pact.Stands.step`).
-/

namespace StakeTrail.Indexing

open StakeTrail.Action

variable {σ : Type} {loop : Loop σ} {ix : Indexer σ} {f : Fleet σ} {s t : σ} {now : List Position × σ}

/-- What the loop of an indexer finds when it looks: checkpoint and target. -/
def Loop.look (loop : Loop σ) (ix : Indexer σ) : Action σ (Nat × Nat) := do
  let checkpoint ← loop.checkpoint ix
  let target ← ix.target
  pure (checkpoint, target)

theorem Loop.step_waiting : loop.step ix .waiting s =
    if loop.cancelled s then (.stopped, s)
    else
      match loop.look ix s with
      | (.ok (checkpoint, target), t) =>
        if loop.isDue ix checkpoint target then (.working (checkpoint + 1) target (checkpoint + 1), t)
        else (.waiting, t)
      | (.error .crash, t) => (.lost, t)
      | (.error _, t) => (.waiting, t) := rfl

/-- **What loops rely on** while others take their turns. -/
structure Pact (σ : Type) where
  /-- What holds of the state between two turns. -/
  inv : σ → Prop
  /-- How the state may move on. -/
  later : σ → σ → Prop
  /-- Whether the indexer of a name may work off a range. -/
  fits : String → σ → Nat → Nat → Prop
  refl : ∀ s, later s s
  trans : ∀ {s t u}, later s t → later t u → later s u
  lasting : ∀ {name s t first target}, later s t → fits name s first target → fits name t first target

namespace Pact

variable {P : Pact σ}

/-- What the loop of an indexer relies on at its position. -/
def Fits (P : Pact σ) (name : String) (s : σ) : Position → Prop
  | .working _ target start => P.fits name s start target
  | _ => True

/-- **What an indexer does in its turns**: the range it finds may be worked off, and so may what is left of a range
after a piece of it. Faults and counts keep the invariant. -/
structure Kept (P : Pact σ) (loop : Loop σ) (ix : Indexer σ) : Prop where
  look : ∀ s, P.inv s →
    Ends (fun t => t = s) (loop.look ix)
      (fun found t => P.fits ix.name t (found.1 + 1) found.2 ∧ P.inv t ∧ P.later s t)
      fun t => P.inv t ∧ P.later s t
  cover : ∀ s first last target, P.inv s → P.fits ix.name s first target → first ≤ last → last ≤ target →
    Ends (fun t => t = s) (ix.cover first last)
      (fun _ t => P.fits ix.name t (last + 1) target ∧ P.inv t ∧ P.later s t)
      fun t => P.inv t ∧ P.later s t
  count : ∀ c s, P.inv s → P.inv (loop.count c s) ∧ P.later s (loop.count c s)

theorem Fits.mono {name : String} {p : Position} (h : P.Fits name s p) (hlater : P.later s t) : P.Fits name t p := by
  cases p with
  | working first target start => exact P.lasting hlater h
  | _ => trivial

/-- A piece is followed by a count. -/
theorem Kept.piece (hk : P.Kept loop ix) {first last target : Nat} (hi : P.inv s)
    (hfits : P.fits ix.name s first target) (h₁ : first ≤ last) (h₂ : last ≤ target) :
    Ends (fun t => t = s) (loop.piece ix first last)
      (fun _ t => P.fits ix.name t (last + 1) target ∧ P.inv t ∧ P.later s t)
      fun t => P.inv t ∧ P.later s t := by
  have hcount : ∀ {c t}, P.inv t ∧ P.later s t → P.inv (loop.count c t) ∧ P.later s (loop.count c t) := by
    rintro c t ⟨hi, hlater⟩
    obtain ⟨hi', hlater'⟩ := hk.count c t hi
    exact ⟨hi', P.trans hlater hlater'⟩
  rintro s' rfl
  have := hk.cover s' first last target hi hfits h₁ h₂ s' rfl
  unfold Loop.piece
  rcases hx : ix.cover first last s' with ⟨e | ⟨⟩, t⟩ <;> rw [hx] at this
  · cases e <;> first | exact this | exact hcount this
  · exact ⟨P.lasting (hk.count _ t this.2.1).2 this.1, hcount this.2⟩

/-- **A step of a loop** keeps the pact. -/
theorem Kept.step (hk : P.Kept loop ix) {p : Position} (hi : P.inv s) (hp : P.Fits ix.name s p) :
    P.inv (loop.step ix p s).2 ∧ P.later s (loop.step ix p s).2 ∧
      P.Fits ix.name (loop.step ix p s).2 (loop.step ix p s).1 := by
  -- where nothing is left to be worked off, only the state counts
  have idle : ∀ {q t}, P.Fits ix.name t q → P.inv t ∧ P.later s t → P.inv t ∧ P.later s t ∧ P.Fits ix.name t q :=
    fun hq ⟨h₁, h₂⟩ => ⟨h₁, h₂, hq⟩
  have stay : P.inv s ∧ P.later s s := ⟨hi, P.refl s⟩
  cases p with
  | stopped => exact idle trivial stay
  | lost => exact idle trivial stay
  | waiting =>
    rw [Loop.step_waiting]
    by_cases hcan : loop.cancelled s = true
    · rw [if_pos hcan]
      exact idle trivial stay
    · rw [if_neg hcan]
      have := hk.look s hi s rfl
      rcases hx : loop.look ix s with ⟨e | ⟨checkpoint, target⟩, t⟩ <;> rw [hx] at this
      · cases e <;> exact idle trivial this
      · dsimp only
        split
        · exact idle this.1 this.2
        · exact idle trivial this.2
  | working first target start =>
    rw [Loop.step]
    by_cases hle : start ≤ target
    · rw [if_pos hle]
      by_cases hcan : loop.cancelled s = true
      · rw [if_pos hcan]
        exact idle trivial stay
      · rw [if_neg hcan]
        have hend : start ≤ pieceEnd start target loop.schedule.batch := le_pieceEnd hle
        have := hk.piece hi hp hend (pieceEnd_le _ _ _) s rfl
        simp only
        rcases hx : loop.piece ix start (pieceEnd start target loop.schedule.batch) s with ⟨e | ⟨⟩, t⟩ <;>
          rw [hx] at this
        · cases e <;> exact idle trivial this
        · exact idle this.1 this.2
    · rw [if_neg hle]
      exact idle trivial stay

/-- **The pact stands**: the invariant holds, and every loop may work off what it has found. -/
structure Stands (P : Pact σ) (names : List String) (now : List Position × σ) : Prop where
  inv : P.inv now.2
  fits : ∀ (turn : Nat) (name : String) (p : Position), names[turn]? = some name → now.1[turn]? = some p →
    P.Fits name now.2 p

/-- Whatever else moves the state on. -/
theorem Stands.move {names : List String} {ps : List Position} (h : P.Stands names (ps, s)) (hi : P.inv t)
    (hlater : P.later s t) : P.Stands names (ps, t) where
  inv := hi
  fits turn name p hn hp := (h.fits turn name p hn hp).mono hlater

/-- **A turn of any loop** keeps the pact. -/
theorem Stands.step (h : P.Stands f.names now) (hk : ∀ ix ∈ f.indexers, P.Kept f.loop ix) (turn : Nat) :
    P.Stands f.names (f.step turn now) := by
  unfold Fleet.step
  split
  · rename_i ix p hix hp
    have hname : f.names[turn]? = some ix.name := by rw [Fleet.names, List.getElem?_map, hix, Option.map_some]
    obtain ⟨hi, hlater, hfits⟩ :=
      (hk ix (List.mem_of_getElem? hix)).step h.inv (h.fits turn ix.name p hname hp)
    refine ⟨hi, fun other name q hn hq => ?_⟩
    rw [List.getElem?_set] at hq
    split at hq
    · rename_i hother
      subst hother
      rw [hname] at hn
      cases hn
      split at hq <;> cases hq
      exact hfits
    · exact (h.fits other name q hn hq).mono hlater
  · exact h

end Pact

end StakeTrail.Indexing
