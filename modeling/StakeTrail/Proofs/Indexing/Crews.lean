import Mathlib
import StakeTrail.Proofs.Indexing.Turns
import StakeTrail.Proofs.Checkpoints.Calls

/-!
# Crews

A `Crew` is a fleet over one store of checkpoints whose members decide on their heads and on what becomes of a range by
their own state alone. The loops take their turns in any order, and at any moment they may be cancelled (`Move`).

What a member does is `Own` to it: it depends on its checkpoint, its state and its notes, and leaves those of the others
alone (`own_look`, `own_piece`, `own_step`).
-/

namespace StakeTrail

/-- **A store that keeps checkpoints apart**: `height` reads its state, loading tells the height, and advancing moves the
checkpoint of one name to the greater of the two heights. -/
structure Checkpoints.Faithful {κ : Type} (store : Checkpoints κ) (height : κ → String → Option Nat) : Prop where
  load : ∀ name k, store.load name k = (.ok (height k name), k)
  advance : ∀ name h k, (store.advance name h k).1 =
    if (height k name).isSome then .ok () else .error (.checkpointMissing name)
  moved : ∀ name h k other, height (store.advance name h k).2 other =
    if other = name then (height k name).map fun c => max c h else height k other

/-- The height of a checkpoint in a list. -/
def Checkpoint.heightIn (points : List Checkpoint) (name : String) : Option Nat :=
  (Keyed.get? Checkpoint.indexer name points).map Checkpoint.height

theorem Checkpoint.memory_advance_of_none {name : String} (h : Nat) {points : List Checkpoint}
    (hg : Keyed.get? Checkpoint.indexer name points = none) :
    Checkpoint.memory.advance name h points = (.error (.checkpointMissing name), points) := by
  simp only [Checkpoint.memory, hg]

theorem Checkpoint.memory_advance_of_some {name : String} (h : Nat) {points : List Checkpoint} {c : Checkpoint}
    (hg : Keyed.get? Checkpoint.indexer name points = some c) :
    Checkpoint.memory.advance name h points = (.ok (), Keyed.put Checkpoint.indexer ⟨name, max c.height h⟩ points) := by
  simp only [Checkpoint.memory, hg]

theorem Checkpoint.memory_faithful : Checkpoint.memory.Faithful Checkpoint.heightIn where
  load _ _ := rfl
  advance name h points := by
    unfold heightIn
    rcases hg : Keyed.get? Checkpoint.indexer name points with _ | c
    · rw [memory_advance_of_none h hg]
      rfl
    · rw [memory_advance_of_some h hg]
      rfl
  moved name h points other := by
    unfold heightIn
    rcases hg : Keyed.get? Checkpoint.indexer name points with _ | c
    · rw [memory_advance_of_none h hg]
      split
      · rename_i hother
        rw [hother, hg]
        rfl
      · rfl
    · rw [memory_advance_of_some h hg, Keyed.get?_put]
      by_cases hother : other = name
      · simp [hother]
      · simp [hother, Ne.symm hother]

namespace Indexing

/-! ## Crews -/

/-- What becomes of a range. -/
inductive Verdict
  | committed
  /-- Nothing is committed. -/
  | failed (e : Fault)
  /-- The task is lost, before or after the range is committed. -/
  | lost (committed : Bool)
  deriving DecidableEq, Repr

/-- An indexer whose own state decides on its head and on what becomes of a range. -/
structure Member (τ : Type) where
  name : String
  lag : Option Nat
  head : Action τ Nat
  verdict : Nat → Nat → τ → Verdict × τ

/-- What the members of a crew share, and what each has for itself. -/
structure Scene (κ τ : Type) where
  /-- The checkpoints. -/
  points : κ
  own : String → τ
  /-- The ranges that the indexer of a name was asked for. -/
  asked : String → List (Nat × Nat) := fun _ => []
  /-- The ranges that it committed. -/
  committed : String → List (Nat × Nat) := fun _ => []
  cancelled : Bool := false
  counts : List Counter := []

variable {κ τ α β γ : Type}

/-- Adds a range to the notes of a name. -/
def noted (name : String) (range : Nat × Nat) (notes : String → List (Nat × Nat)) : String → List (Nat × Nat) :=
  Function.update notes name (notes name ++ [range])

namespace Member

variable (m : Member τ) (store : Checkpoints κ)

/-- Runs an action on the state of a member. -/
def inside (x : τ → β × τ) : Scene κ τ → β × Scene κ τ := fun s =>
  ((x (s.own m.name)).1, { s with own := Function.update s.own m.name (x (s.own m.name)).2 })

/-- Moves the checkpoint of a member to the end of a range. -/
def commit (first last : Nat) : Action (Scene κ τ) Unit := do
  (store.advance m.name last).within (·.points) fun k s => { s with points := k }
  Action.update fun s => { s with committed := noted m.name (first, last) s.committed }

/-- What a member does with a range that it is asked for. -/
def finish (first last : Nat) : Verdict → Action (Scene κ τ) Unit
  | .committed => m.commit store first last
  | .failed e => Action.fail e
  | .lost false => Action.fail .crash
  | .lost true => do
    m.commit store first last
    Action.fail .crash

/-- The indexer of a member. -/
def indexer : Indexer (Scene κ τ) where
  name := m.name
  lag := m.lag
  init := pure ()
  target := m.inside m.head
  cover first last := fun s =>
    let s := { s with asked := noted m.name (first, last) s.asked }
    let (verdict, s) := m.inside (m.verdict first last) s
    m.finish store first last verdict s

end Member

/-- Members over one store, before their loops start. -/
structure Crew (κ τ : Type) where
  store : Checkpoints κ
  schedule : Schedule
  /-- The checkpoints before the run. -/
  points : κ
  /-- The states of the members before the run. -/
  own : String → τ
  members : List (Member τ)

/-- What happens next: a loop takes a turn, or all loops are cancelled. -/
inductive Move
  | turn (i : Nat)
  | cancel
  deriving DecidableEq, Repr

namespace Crew

/-- What the loops share. -/
def loop (c : Crew κ τ) : Loop (Scene κ τ) where
  checkpoints := c.store.within (·.points) fun k s => { s with points := k }
  schedule := c.schedule
  cancelled := (·.cancelled)
  count counter s := { s with counts := counter :: s.counts }

/-- The fleet of a crew. -/
def fleet (c : Crew κ τ) : Fleet (Scene κ τ) := ⟨c.loop, c.members.map fun m => m.indexer c.store⟩

/-- Makes a move. -/
def move (c : Crew κ τ) (now : List Position × Scene κ τ) : Move → List Position × Scene κ τ
  | .turn i => c.fleet.step i now
  | .cancel => (now.1, { now.2 with cancelled := true })

/-- The crew after some moves. -/
def after (c : Crew κ τ) (moves : List Move) : List Position × Scene κ τ :=
  moves.foldl c.move (c.fleet.start, ⟨c.points, c.own, fun _ => [], fun _ => [], false, []⟩)

/-- One member without the others. -/
def alone (c : Crew κ τ) (m : Member τ) : Crew κ τ := { c with members := [m] }

end Crew

/-- The moves that a member sees: its own turns and cancellations. -/
def mine (i : Nat) : List Move → List Move :=
  List.filterMap fun
    | .turn j => if j = i then some (.turn 0) else none
    | .cancel => some .cancel

/-! ## What is a member's own -/

variable {height : κ → String → Option Nat} {name other : String} {s s' : Scene κ τ}

/-- Two scenes are alike for the indexer of a name. -/
structure Alike (height : κ → String → Option Nat) (name : String) (s s' : Scene κ τ) : Prop where
  height : height s.points name = height s'.points name
  own : s.own name = s'.own name
  asked : s.asked name = s'.asked name
  committed : s.committed name = s'.committed name
  cancelled : s.cancelled = s'.cancelled

namespace Alike

protected theorem refl (s : Scene κ τ) : Alike height name s s := ⟨rfl, rfl, rfl, rfl, rfl⟩

protected theorem symm (h : Alike height name s s') : Alike height name s' s :=
  ⟨h.height.symm, h.own.symm, h.asked.symm, h.committed.symm, h.cancelled.symm⟩

protected theorem trans {s'' : Scene κ τ} (h : Alike height name s s') (h' : Alike height name s' s'') :
    Alike height name s s'' :=
  ⟨h.height.trans h'.height, h.own.trans h'.own, h.asked.trans h'.asked, h.committed.trans h'.committed,
    h.cancelled.trans h'.cancelled⟩

end Alike

/-- **What the indexer of a name does by itself**: it ends alike in scenes that are alike for it, leaves the scene as it was
for everybody else, and takes nothing back of what was asked for. -/
structure Own (height : κ → String → Option Nat) (name : String) (x : Scene κ τ → β × Scene κ τ) : Prop where
  same : ∀ {s s'}, Alike height name s s' → (x s).1 = (x s').1 ∧ Alike height name (x s).2 (x s').2
  others : ∀ {other}, other ≠ name → ∀ s, Alike height other s (x s).2
  grows : ∀ s other, s.asked other <+: (x s).2.asked other

namespace Own

protected theorem pure (b : β) : Own height name fun s : Scene κ τ => (b, s) where
  same h := ⟨rfl, h⟩
  others _ s := .refl s
  grows _ _ := List.prefix_rfl

/-- One thing after another. -/
protected theorem seq {x : Scene κ τ → β × Scene κ τ} {f : β → Scene κ τ → γ × Scene κ τ} (hx : Own height name x)
    (hf : ∀ b, Own height name (f b)) : Own height name fun s => f (x s).1 (x s).2 where
  same {s s'} h := by
    obtain ⟨hb, h⟩ := hx.same h
    simp only [hb]
    exact (hf _).same h
  others hne s := (hx.others hne s).trans ((hf _).others hne _)
  grows s other := (hx.grows s other).trans ((hf _).grows _ other)

/-- What goes on in one way for each outcome of what came first. -/
protected theorem cases {x : Scene κ τ → β × Scene κ τ} {y : Scene κ τ → γ × Scene κ τ} (hx : Own height name x)
    (hy : ∀ b, ∃ f, Own height name f ∧ ∀ s t, x s = (b, t) → y s = f t) : Own height name y := by
  choose f hf heq using hy
  have hseq : y = fun s => f (x s).1 (x s).2 := by
    funext s
    exact heq _ s _ rfl
  rw [hseq]
  exact hx.seq hf

protected theorem bind {x : Action (Scene κ τ) α} {f : α → Action (Scene κ τ) β} (hx : Own height name x)
    (hf : ∀ a, Own height name (f a)) : Own height name (x >>= f) := by
  refine hx.cases fun r => ?_
  cases r with
  | ok a => exact ⟨f a, hf a, fun s t h => by rw [Action.bind_apply, h]⟩
  | error e => exact ⟨_, .pure (.error e), fun s t h => by rw [Action.bind_apply, h]⟩

/-- What ends at once when the loops are cancelled, and otherwise goes on in one way for each outcome of what came
first. -/
protected theorem unlessCancelled {x : Scene κ τ → β × Scene κ τ} {y : Scene κ τ → γ × Scene κ τ} (stop : γ)
    (hx : Own height name x) (hstop : ∀ s, s.cancelled = true → y s = (stop, s))
    (hgo : ∀ b, ∃ f, Own height name f ∧ ∀ s t, s.cancelled = false → x s = (b, t) → y s = f t) :
    Own height name y := by
  choose f hf heq using hgo
  have hseq : Own height name fun s => f (x s).1 (x s).2 := hx.seq hf
  have hy : ∀ s, s.cancelled = false → y s = f (x s).1 (x s).2 := fun s h => heq _ s _ h rfl
  refine ⟨fun {s s'} h => ?_, fun {other} hne s => ?_, fun s other => ?_⟩
  · cases hcan : s.cancelled with
    | true =>
      rw [hstop s hcan, hstop s' (h.cancelled ▸ hcan)]
      exact ⟨rfl, h⟩
    | false =>
      rw [hy s hcan, hy s' (h.cancelled ▸ hcan)]
      exact hseq.same h
  · cases hcan : s.cancelled with
    | true =>
      rw [hstop s hcan]
      exact .refl s
    | false =>
      rw [hy s hcan]
      exact hseq.others hne s
  · cases hcan : s.cancelled with
    | true =>
      rw [hstop s hcan]
    | false =>
      rw [hy s hcan]
      exact hseq.grows s other

/-- Nobody looks at the counts. -/
protected theorem count (counter : Counter) (b : β) :
    Own height name fun s : Scene κ τ => (b, { s with counts := counter :: s.counts }) where
  same h := ⟨rfl, ⟨h.height, h.own, h.asked, h.committed, h.cancelled⟩⟩
  others _ _ := ⟨rfl, rfl, rfl, rfl, rfl⟩
  grows _ _ := List.prefix_rfl

end Own

/-! ## What members do -/

section Members

variable {m : Member τ} {store : Checkpoints κ}

theorem noted_self (range : Nat × Nat) (notes : String → List (Nat × Nat)) :
    noted name range notes name = notes name ++ [range] := by
  rw [noted, Function.update_self]

theorem noted_of_ne (h : other ≠ name) (range : Nat × Nat) (notes : String → List (Nat × Nat)) :
    noted name range notes other = notes other := by
  rw [noted, Function.update_of_ne h]

theorem own_inside (x : τ → β × τ) : Own (κ := κ) height m.name (m.inside x) where
  same {s s'} h := by
    refine ⟨?_, ⟨h.height, ?_, h.asked, h.committed, h.cancelled⟩⟩
    · simp only [Member.inside, h.own]
    · simp only [Member.inside, h.own, Function.update_self]
  others hne s := ⟨rfl, by simp [Member.inside, Function.update_of_ne hne], rfl, rfl, rfl⟩
  grows _ _ := List.prefix_rfl

/-- A range is noted before anything else is done with it. -/
theorem own_asked (range : Nat × Nat) : Own height name fun s : Scene κ τ =>
    ((), { s with asked := noted name range s.asked }) where
  same {s s'} h := ⟨rfl, ⟨h.height, h.own, by simp only [noted_self, h.asked], h.committed, h.cancelled⟩⟩
  others hne s := ⟨rfl, rfl, (noted_of_ne hne range s.asked).symm, rfl, rfl⟩
  grows s other := by
    by_cases hother : other = name
    · subst hother
      simp only [noted_self]
      exact List.prefix_append _ _
    · simp only [noted_of_ne hother]
      exact List.prefix_rfl

variable (hstore : store.Faithful height)

include hstore

theorem own_commit (first last : Nat) : Own height m.name (m.commit store first last) := by
  have hadvance : Own height m.name ((store.advance m.name last).within (fun s : Scene κ τ => s.points)
      fun k s => { s with points := k }) := by
    refine ⟨fun {s s'} h => ?_, fun hne s => ?_, fun _ _ => List.prefix_rfl⟩
    · refine ⟨?_, ⟨?_, h.own, h.asked, h.committed, h.cancelled⟩⟩
      · show (store.advance _ _ _).1 = (store.advance _ _ _).1
        rw [hstore.advance, hstore.advance, h.height]
      · show height (store.advance _ _ _).2 _ = height (store.advance _ _ _).2 _
        rw [hstore.moved, hstore.moved, if_pos rfl, if_pos rfl, h.height]
    · refine ⟨?_, rfl, rfl, rfl, rfl⟩
      show _ = height (store.advance _ _ _).2 _
      rw [hstore.moved, if_neg hne]
  refine hadvance.bind fun _ => ?_
  refine ⟨fun {s s'} h => ⟨rfl, ⟨h.height, h.own, h.asked, ?_, h.cancelled⟩⟩, fun hne s => ?_, fun _ _ => List.prefix_rfl⟩
  · simp only [Action.update_apply, noted_self, h.committed]
  · exact ⟨rfl, rfl, rfl, (noted_of_ne hne _ _).symm, rfl⟩

theorem own_cover (first last : Nat) : Own height m.name ((m.indexer store).cover first last) := by
  have hfinish : ∀ verdict, Own height m.name (m.finish store first last verdict) := by
    intro verdict
    cases verdict with
    | committed => exact own_commit hstore first last
    | failed e => exact .pure _
    | lost committed =>
      cases committed with
      | false => exact .pure _
      | true => exact (own_commit hstore first last).bind fun _ => .pure _
  exact (own_asked (first, last)).seq fun _ => (own_inside (m.verdict first last)).seq hfinish

variable {c : Crew κ τ} (hc : c.store = store)

include hc

theorem own_look : Own height m.name (c.loop.look (m.indexer c.store)) := by
  subst hc
  have hload : Own height m.name (c.loop.checkpoints.load m.name) := by
    have heq : c.loop.checkpoints.load m.name = fun s => (.ok (height s.points m.name), s) := by
      funext s
      show ((c.store.load m.name s.points).1, { s with points := (c.store.load m.name s.points).2 }) = _
      rw [hstore.load]
    rw [heq]
    exact ⟨fun h => ⟨by rw [h.height], h⟩, fun _ s => .refl s, fun _ _ => List.prefix_rfl⟩
  have hcheckpoint : Own height m.name (c.loop.checkpoint (m.indexer c.store)) := by
    refine hload.bind fun found => ?_
    rcases found with _ | h
    · exact .pure _
    · exact .pure _
  exact hcheckpoint.bind fun checkpoint => (own_inside m.head).bind fun target => .pure _

theorem own_piece (first last : Nat) : Own height m.name (c.loop.piece (m.indexer c.store) first last) := by
  subst hc
  refine (own_cover hstore first last).cases fun r => ?_
  rcases r with e | ⟨⟩
  · by_cases hcrash : e = .crash
    · subst hcrash
      exact ⟨_, .pure _, fun s t h => by rw [Loop.piece, h]⟩
    · refine ⟨_, .count (.indexError m.name e.kind) (.error e), fun s t h => ?_⟩
      rw [Loop.piece, h]
      cases e <;> first | rfl | exact absurd rfl hcrash
  · exact ⟨_, .count (.batch m.name) (.ok ()), fun s t h => by rw [Loop.piece, h]; rfl⟩

/-- **A step of a member's loop** is its own. -/
theorem own_step (p : Position) : Own height m.name (c.loop.step (m.indexer c.store) p) := by
  have hgo {s : Scene κ τ} (h : s.cancelled = false) : ¬ c.loop.cancelled s = true := by
    rw [show c.loop.cancelled s = s.cancelled from rfl, h]
    decide
  cases p with
  | waiting =>
    refine (own_look hstore hc).unlessCancelled .stopped (fun s h => if_pos h) fun r => ?_
    rcases r with e | ⟨checkpoint, target⟩
    · cases e <;> exact ⟨_, .pure _, fun s t hcan h => by rw [Loop.step_waiting, if_neg (hgo hcan), h]⟩
    · by_cases hdue : c.loop.isDue (m.indexer c.store) checkpoint target = true
      · refine ⟨_, .pure (.working (checkpoint + 1) target (checkpoint + 1)), fun s t hcan h => ?_⟩
        rw [Loop.step_waiting, if_neg (hgo hcan), h]
        exact if_pos hdue
      · refine ⟨_, .pure .waiting, fun s t hcan h => ?_⟩
        rw [Loop.step_waiting, if_neg (hgo hcan), h]
        exact if_neg hdue
  | working first target start =>
    by_cases hle : start ≤ target
    · refine (own_piece hstore hc start (pieceEnd start target c.loop.schedule.batch)).unlessCancelled .waiting
        (fun s h => ?_) fun r => ?_
      · rw [Loop.step, if_pos hle]
        exact if_pos h
      · rcases r with e | ⟨⟩
        · cases e <;> exact ⟨_, .pure _, fun s t hcan h => by
            rw [Loop.step, if_pos hle, if_neg (hgo hcan)]
            simp only [h]
            rfl⟩
        · refine ⟨_, .pure (.working first target (pieceEnd start target c.loop.schedule.batch + 1)), fun s t hcan h => ?_⟩
          rw [Loop.step, if_pos hle, if_neg (hgo hcan)]
          simp only [h]
    · have heq : c.loop.step (m.indexer c.store) (.working first target start) = fun s => (.waiting, s) := by
        funext s
        exact if_neg hle
      rw [heq]
      exact .pure _
  | stopped => exact .pure _
  | lost => exact .pure _

end Members

end Indexing

end StakeTrail
