import StakeTrail.Proofs.Indexing.Turns

/-!
# Runs of loops

A run of a fleet is made of turns of its loops, of whole ticks, of loops that start over, and of whatever else happens to
the state in between (`Runs`). Every turn may be one of another fleet, so nodes, schedules and cancellations may change
all the time.

If every indexer keeps a pact, a whole tick keeps it (`Pact.Kept.tick`), and so does any run (`Runs.stands`). A fault that
no look and no piece within the pact can end with does not come out of a tick either (`Pact.Kept.tick_fault`).
-/

namespace StakeTrail.Indexing

open StakeTrail.Action

variable {σ : Type} {loop : Loop σ} {ix : Indexer σ} {s s' : σ} {positions : List Position} {now : List Position × σ}

/-- A tick looks at checkpoint and target and works off what is due. -/
theorem Loop.tick_eq_look (loop : Loop σ) (ix : Indexer σ) : loop.tick ix = (do
    let found ← loop.look ix
    if loop.isDue ix found.1 found.2 then
      loop.work ix (found.1 + 1) found.2 (found.2 - found.1) (found.1 + 1)
    else pure (.skipped found.1 found.2)) := by
  simp only [Loop.tick, Loop.look, bind_assoc, pure_bind]

/-- The fault of a piece is that of its range. -/
theorem Loop.piece_fst (loop : Loop σ) (ix : Indexer σ) (first last : Nat) (s : σ) :
    (loop.piece ix first last s).1 = (ix.cover first last s).1 := by
  unfold Loop.piece
  rcases ix.cover first last s with ⟨e | ⟨⟩, t⟩
  · cases e <;> rfl
  · rfl

namespace Pact

variable {P : Pact σ} {F : Fault → Prop}

/-- **The pieces of a tick** keep the pact, and end with faults of pieces only. -/
theorem Kept.work (hk : P.Kept loop ix)
    (hF : ∀ t first last target e, P.inv t → P.fits ix.name t first target → first ≤ last → last ≤ target →
      (ix.cover first last t).1 = .error e → F e) (first target : Nat) :
    ∀ (left start : Nat) (s : σ), P.inv s → P.fits ix.name s start target →
      P.inv (loop.work ix first target left start s).2 ∧ P.later s (loop.work ix first target left start s).2 ∧
        ∀ e, (loop.work ix first target left start s).1 = .error e → F e
  | 0, _, s, hi, _ => ⟨hi, P.refl s, by simp [Loop.work]⟩
  | left + 1, start, s, hi, hfits => by
    unfold Loop.work
    by_cases hle : start ≤ target
    · rw [if_pos hle]
      by_cases hcan : loop.cancelled s = true
      · rw [if_pos hcan]
        exact ⟨hi, P.refl s, by simp⟩
      · rw [if_neg hcan]
        have hend : start ≤ pieceEnd start target loop.schedule.batch := le_pieceEnd hle
        have hend' := pieceEnd_le start target loop.schedule.batch
        have hfault := fun e => hF s start _ target e hi hfits hend hend'
        have hpiece := hk.piece hi hfits hend hend' s rfl
        have hfst := loop.piece_fst ix start (pieceEnd start target loop.schedule.batch) s
        simp only
        rcases hx : loop.piece ix start (pieceEnd start target loop.schedule.batch) s with ⟨e | ⟨⟩, t⟩ <;>
          rw [hx] at hpiece hfst
        · refine ⟨hpiece.1, hpiece.2, fun e' he' => ?_⟩
          cases he'
          exact hfault e hfst.symm
        · obtain ⟨hi', hlater, hF'⟩ := hk.work hF first target left _ t hpiece.2.1 hpiece.1
          exact ⟨hi', P.trans hpiece.2.2 hlater, hF'⟩
    · rw [if_neg hle]
      exact ⟨hi, P.refl s, by simp⟩

/-- A whole tick, whatever is known of its faults. -/
theorem Kept.tick_of (hk : P.Kept loop ix)
    (hlook : ∀ t e, P.inv t → (loop.look ix t).1 = .error e → F e)
    (hF : ∀ t first last target e, P.inv t → P.fits ix.name t first target → first ≤ last → last ≤ target →
      (ix.cover first last t).1 = .error e → F e) (hi : P.inv s) :
    P.inv (loop.tick ix s).2 ∧ P.later s (loop.tick ix s).2 ∧ ∀ e, (loop.tick ix s).1 = .error e → F e := by
  have hfound := hk.look s hi s rfl
  have hfault := fun e => hlook s e hi
  rw [Loop.tick_eq_look, bind_apply]
  rcases hx : loop.look ix s with ⟨e | ⟨checkpoint, target⟩, t⟩ <;> rw [hx] at hfound hfault
  · refine ⟨hfound.1, hfound.2, fun e' he' => ?_⟩
    cases he'
    exact hfault e rfl
  · obtain ⟨hfits, hi', hlater⟩ := hfound
    dsimp only
    split
    · obtain ⟨hi'', hlater', hF'⟩ := hk.work hF (checkpoint + 1) target (target - checkpoint) _ t hi' hfits
      exact ⟨hi'', P.trans hlater hlater', hF'⟩
    · exact ⟨hi', hlater, by simp⟩

/-- **A whole tick** keeps the pact. -/
theorem Kept.tick (hk : P.Kept loop ix) (hi : P.inv s) : P.inv (loop.tick ix s).2 ∧ P.later s (loop.tick ix s).2 :=
  have h := hk.tick_of (F := fun _ => True) (fun _ _ _ _ => trivial) (fun _ _ _ _ _ _ _ _ _ _ => trivial) hi
  ⟨h.1, h.2.1⟩

/-- **The fault of a tick** is one of its look or of a piece within the pact. -/
theorem Kept.tick_fault (hk : P.Kept loop ix)
    (hlook : ∀ t e, P.inv t → (loop.look ix t).1 = .error e → F e)
    (hF : ∀ t first last target e, P.inv t → P.fits ix.name t first target → first ≤ last → last ≤ target →
      (ix.cover first last t).1 = .error e → F e) (hi : P.inv s) {e : Fault} (he : (loop.tick ix s).1 = .error e) :
    F e :=
  (hk.tick_of hlook hF hi).2.2 e he

/-- Loops that wait rely on nothing but the invariant. -/
theorem Stands.of_waiting {names : List String} (hi : P.inv s) (h : ∀ p ∈ positions, p = .waiting) :
    P.Stands names (positions, s) where
  inv := hi
  fits turn name p _ hp := by
    rw [h p (List.mem_of_getElem? hp)]
    trivial

/-- A loop that starts over relies on nothing. -/
theorem Stands.again {names : List String} (h : P.Stands names (positions, s)) (turn : Nat) :
    P.Stands names (positions.set turn .waiting, s) where
  inv := h.inv
  fits other name p hn hp := by
    rw [List.getElem?_set] at hp
    split at hp
    · split at hp <;> cases hp
      trivial
    · exact h.fits other name p hn hp

end Pact

/-- **The states of a run**: turns of the loops of fleets, whole ticks, loops that start over, and other moves. Whatever
fails in a turn or a tick, the run goes on. -/
inductive Runs (fleets : Fleet σ → Prop) (moves : σ → σ → Prop) (starts : List Position × σ → Prop) :
    List Position × σ → Prop
  | start {now : List Position × σ} : starts now → Runs fleets moves starts now
  | turn {f : Fleet σ} {now : List Position × σ} (turn : Nat) : Runs fleets moves starts now → fleets f →
      Runs fleets moves starts (f.step turn now)
  | tick {f : Fleet σ} {ix : Indexer σ} {positions : List Position} {s : σ} : Runs fleets moves starts (positions, s) →
      fleets f → ix ∈ f.indexers → Runs fleets moves starts (positions, (f.loop.tick ix s).2)
  | again {positions : List Position} {s : σ} (turn : Nat) : Runs fleets moves starts (positions, s) →
      Runs fleets moves starts (positions.set turn .waiting, s)
  | move {positions : List Position} {s s' : σ} : Runs fleets moves starts (positions, s) → moves s s' →
      Runs fleets moves starts (positions, s')

namespace Runs

variable {fleets : Fleet σ → Prop} {moves : σ → σ → Prop} {starts : List Position × σ → Prop}

/-- Several turns of one fleet. -/
theorem turns {f : Fleet σ} (h : Runs fleets moves starts now) (hf : fleets f) (turns : List Nat) :
    Runs fleets moves starts (f.run turns now) := by
  induction turns generalizing now with
  | nil => exact h
  | cons turn turns ih => exact ih (h.turn turn hf)

/-- **In any run the pact stands**, if it does at the start and every indexer and every other move keeps it. -/
theorem stands {P : Pact σ} {names : List String} (h : Runs fleets moves starts now)
    (hstarts : ∀ now, starts now → P.Stands names now)
    (hfleets : ∀ f, fleets f → f.names = names ∧ ∀ ix ∈ f.indexers, P.Kept f.loop ix)
    (hmoves : ∀ s s', moves s s' → P.inv s → P.inv s' ∧ P.later s s') : P.Stands names now := by
  induction h with
  | start hnow => exact hstarts _ hnow
  | turn turn _ hf ih =>
    obtain ⟨hnames, hkept⟩ := hfleets _ hf
    subst hnames
    exact ih.step hkept turn
  | tick _ hf hix ih =>
    obtain ⟨hi, hlater⟩ := ((hfleets _ hf).2 _ hix).tick ih.inv
    exact ih.move hi hlater
  | again turn _ ih => exact ih.again turn
  | move _ hmove ih =>
    obtain ⟨hi, hlater⟩ := hmoves _ _ hmove ih.inv
    exact ih.move hi hlater

end Runs

end StakeTrail.Indexing
