import StakeTrail.Indexing.Loop
import StakeTrail.Proofs.Indexing.Tiling

/-!
# Watching a loop

A loop works on any state, so also on one that takes down what the loop asks of its indexer: `Watched` holds a state,
the targets that the indexer gave and its `Call`s, each with the state in which the piece was started and with the
answer. Watching changes neither answers nor states (`checkpoint_watched`, `piece_watched`).

`Course` is what a tick does with the pieces that are left: it stops when none is left, when it is cancelled, or at
the first piece that fails. The work of a watched loop is a course over the pieces of its range, and that of the loop
that nobody watches is the same (`work_course`).
-/

namespace StakeTrail.Indexing

variable {σ : Type}

/-- A piece that an indexer was asked for. -/
structure Call (σ : Type) where
  first : Nat
  last : Nat
  /-- The state in which the piece was started. -/
  before : σ
  answer : Except Fault Unit

/-- The heights of a call. -/
def Call.range (c : Call σ) : Nat × Nat := (c.first, c.last)

/-- Whether a call was committed. -/
def Call.succeeded (c : Call σ) : Bool :=
  match c.answer with
  | .ok () => true
  | .error _ => false

/-- The ranges of the calls that were committed, in order. -/
def covered (calls : List (Call σ)) : List (Nat × Nat) := (calls.filter Call.succeeded).map Call.range

/-- A state with what a loop has asked of its indexer so far. -/
structure Watched (σ : Type) where
  state : σ
  targets : List Nat := []
  calls : List (Call σ) := []

/-- Changes the state and leaves the notes alone. -/
def Watched.onState (f : σ → σ) (w : Watched σ) : Watched σ := { w with state := f w.state }

/-- The indexer that takes down what it is asked. -/
def Indexer.watched (ix : Indexer σ) : Indexer (Watched σ) where
  name := ix.name
  lag := ix.lag
  init := ix.init.within (·.state) fun s w => { w with state := s }
  target := fun w =>
    match ix.target w.state with
    | (.ok height, s) => (.ok height, { w with state := s, targets := w.targets ++ [height] })
    | (.error e, s) => (.error e, { w with state := s })
  cover first last := fun w =>
    match ix.cover first last w.state with
    | (answer, s) => (answer, { w with state := s, calls := w.calls ++ [⟨first, last, w.state, answer⟩] })

/-- The same loop over states with notes. -/
def Loop.watched (loop : Loop σ) : Loop (Watched σ) where
  checkpoints := loop.checkpoints.within (·.state) fun s w => { w with state := s }
  schedule := loop.schedule
  cancelled w := loop.cancelled w.state
  count c := Watched.onState (loop.count c)

/-- Ticks again and again; before each tick the surroundings make a move. -/
def Loop.ticks (loop : Loop σ) (ix : Indexer σ) : List (σ → σ) → σ → σ
  | [], s => s
  | move :: rest, s => ticks loop ix rest (loop.tick ix (move s)).2

/-! ## One step under watch -/

variable {loop : Loop σ} {ix : Indexer σ}

theorem load_watched (w : Watched σ) :
    loop.watched.checkpoints.load ix.watched.name w =
      ((loop.checkpoints.load ix.name w.state).1,
        ⟨(loop.checkpoints.load ix.name w.state).2, w.targets, w.calls⟩) := rfl

theorem checkpoint_watched (w : Watched σ) :
    loop.watched.checkpoint ix.watched w =
      ((loop.checkpoint ix w.state).1, ⟨(loop.checkpoint ix w.state).2, w.targets, w.calls⟩) := by
  unfold Loop.checkpoint
  rw [Action.bind_apply, Action.bind_apply, load_watched]
  rcases loop.checkpoints.load ix.name w.state with ⟨_ | _ | c, s⟩ <;> rfl

theorem cover_watched (a b : Nat) (w : Watched σ) :
    ix.watched.cover a b w =
      ((ix.cover a b w.state).1,
        ⟨(ix.cover a b w.state).2, w.targets, w.calls ++ [⟨a, b, w.state, (ix.cover a b w.state).1⟩]⟩) := rfl

theorem piece_watched (a b : Nat) (w : Watched σ) :
    loop.watched.piece ix.watched a b w =
      ((loop.piece ix a b w.state).1,
        ⟨(loop.piece ix a b w.state).2, w.targets,
          w.calls ++ [⟨a, b, w.state, (loop.piece ix a b w.state).1⟩]⟩) := by
  unfold Loop.piece
  rw [cover_watched]
  rcases ix.cover a b w.state with ⟨e | ⟨⟩, s'⟩
  · cases e <;> rfl
  · rfl

/-! ## Courses -/

/-- **What a tick does with the pieces that are left**: the calls that it makes, its answer and the state in which it
ends. `first` and `target` are the ends of the whole range. -/
inductive Course (loop : Loop σ) (ix : Indexer σ) (first target : Nat) :
    List (Nat × Nat) → σ → List (Call σ) → Except Fault Outcome → σ → Prop
  | done (s : σ) : Course loop ix first target [] s [] (.ok (.indexed first target)) s
  | cancelled {a b : Nat} {ps : List (Nat × Nat)} {s : σ} : loop.cancelled s = true →
      Course loop ix first target ((a, b) :: ps) s [] (.ok (.interrupted first (a - 1))) s
  | failed {a b : Nat} {ps : List (Nat × Nat)} {s s' : σ} {e : Fault} : loop.cancelled s = false →
      loop.piece ix a b s = (.error e, s') →
      Course loop ix first target ((a, b) :: ps) s [⟨a, b, s, .error e⟩] (.error e) s'
  | next {a b : Nat} {ps : List (Nat × Nat)} {s s' s'' : σ} {calls : List (Call σ)}
      {answer : Except Fault Outcome} : loop.cancelled s = false → loop.piece ix a b s = (.ok (), s') →
      Course loop ix first target ps s' calls answer s'' →
      Course loop ix first target ((a, b) :: ps) s (⟨a, b, s, .ok ()⟩ :: calls) answer s''

/-- **The work of a watched loop is a course over the pieces of its range**, and the loop that nobody watches does
the same. -/
theorem work_course (loop : Loop σ) (ix : Indexer σ) (first target : Nat) :
    ∀ (left start : Nat) (w : Watched σ), ∃ calls answer s',
    loop.watched.work ix.watched first target left start w = (answer, ⟨s', w.targets, w.calls ++ calls⟩) ∧
    loop.work ix first target left start w.state = (answer, s') ∧
    Course loop ix first target (somePieces left start target loop.schedule.batch) w.state calls answer s'
  | 0, _, w => ⟨[], _, w.state, by rw [List.append_nil]; rfl, rfl, .done _⟩
  | left + 1, start, w => by
    unfold Loop.work somePieces
    by_cases hs : start ≤ target
    · simp only [if_pos hs]
      cases hc : loop.cancelled w.state with
      | true =>
        have hw : loop.watched.cancelled w = true := hc
        rw [if_pos hw, if_pos rfl]
        exact ⟨[], _, w.state, by rw [List.append_nil], rfl, .cancelled hc⟩
      | false =>
        have hw : ¬ loop.watched.cancelled w = true := by simp [Loop.watched, hc]
        rw [if_neg hw, if_neg Bool.false_ne_true]
        have hb : loop.watched.schedule.batch = loop.schedule.batch := rfl
        simp only [hb, piece_watched]
        rcases hp : loop.piece ix start (pieceEnd start target loop.schedule.batch) w.state with ⟨e | ⟨⟩, s'⟩
        · exact ⟨_, _, s', rfl, rfl, .failed hc hp⟩
        · -- the next pieces are worked off from the state after this one, with this call noted
          obtain ⟨calls, answer, s'', h₁, h₂, h₃⟩ := work_course loop ix first target left
            (pieceEnd start target loop.schedule.batch + 1)
            ⟨s', w.targets,
              w.calls ++ [⟨start, pieceEnd start target loop.schedule.batch, w.state, .ok ()⟩]⟩
          refine ⟨_ :: calls, answer, s'', ?_, h₂, .next hc hp h₃⟩
          simpa [List.append_assoc] using h₁
    · simp only [if_neg hs]
      exact ⟨[], _, w.state, by rw [List.append_nil], rfl, .done _⟩

namespace Course

variable {first target : Nat} {ps : List (Nat × Nat)} {s s' : σ} {calls : List (Call σ)}
  {answer : Except Fault Outcome}

/-- The calls are the first of the pieces, in order. -/
theorem ranges (h : Course loop ix first target ps s calls answer s') : calls.map Call.range <+: ps := by
  induction h with
  | done => exact List.prefix_rfl
  | cancelled => exact List.nil_prefix
  | failed => exact ⟨_, rfl⟩
  | next _ _ _ ih => exact (List.prefix_cons_inj _).mpr ih

/-- No piece is started once the loop is cancelled. -/
theorem notCancelled (h : Course loop ix first target ps s calls answer s') :
    ∀ c ∈ calls, loop.cancelled c.before = false := by
  induction h with
  | done | cancelled => simp
  | failed hc => simpa using hc
  | next hc _ _ ih => simpa using ⟨hc, ih⟩

/-- Nothing is called after a failure. -/
theorem dropLast (h : Course loop ix first target ps s calls answer s') :
    ∀ c ∈ calls.dropLast, c.answer = .ok () := by
  induction h with
  | done | cancelled | failed => simp
  | @next _ _ _ _ _ _ rest _ _ _ _ ih =>
    cases rest with
    | nil => simp
    | cons d ds => simpa using ih

/-- **The three ways in which a course ends.** -/
theorem ending (h : Course loop ix first target ps s calls answer s') :
    (answer = .ok (.indexed first target) ∧ calls.map Call.range = ps ∧ ∀ c ∈ calls, c.answer = .ok ()) ∨
    (∃ e, answer = .error e ∧ (∃ c ∈ calls, c.answer = .error e) ∧
      ∀ c ∈ calls, ∀ e', c.answer = .error e' → e' = e) ∨
    (∃ m, answer = .ok (.interrupted first m) ∧ loop.cancelled s' = true ∧ calls.map Call.range ≠ ps ∧
      ∀ c ∈ calls, c.answer = .ok ()) := by
  induction h with
  | done => exact .inl ⟨rfl, rfl, by simp⟩
  | cancelled hc => exact .inr (.inr ⟨_, rfl, hc, by simp, by simp⟩)
  | failed => exact .inr (.inl ⟨_, rfl, by simp, by simp⟩)
  | next hc hp _ ih =>
    rcases ih with ⟨h₁, h₂, h₃⟩ | ⟨e, h₁, ⟨c, h₂, h₃⟩, h₄⟩ | ⟨m, h₁, h₂, h₃, h₄⟩
    · exact .inl ⟨h₁, by simp [Call.range, h₂], by simpa using h₃⟩
    · exact .inr (.inl ⟨e, h₁, ⟨c, List.mem_cons_of_mem _ h₂, h₃⟩, by simpa using h₄⟩)
    · exact .inr (.inr ⟨m, h₁, h₂, by simpa [Call.range] using h₃, by simpa using h₄⟩)

end Course

end StakeTrail.Indexing
