import StakeTrail.Proofs.Indexing.Watch

/-!
# Ticks and runs of ticks

`Tracks loop ix stored` is what a loop relies on: `stored` reads the checkpoint of the indexer out of the state, a
piece that is committed moves it to the end of the piece, and nothing else moves it.

* A tick that is due is a course over the pieces from the checkpoint to the target (`tick_course`), and a course moves
  the checkpoint over what it has committed (`Course.advances`).
* `WorksOff` is what such a tick answers.
* **The main statement** (`ticks_in_order`) joins the two for one tick, and for any run of ticks with any targets.
-/

namespace StakeTrail.Indexing

variable {σ : Type} {loop : Loop σ} {ix : Indexer σ} {stored : σ → Option Nat}

/-- **What a loop relies on.** `stored` is the checkpoint of the indexer. Loading answers it or fails; a piece that
starts right after it either is committed, and the checkpoint is then the end of the piece, or fails and leaves it
alone; looking for the target and counting leave it alone too. -/
structure Tracks (loop : Loop σ) (ix : Indexer σ) (stored : σ → Option Nat) : Prop where
  load : ∀ {s s' : σ} {r}, loop.checkpoints.load ix.name s = (r, s') →
    stored s' = stored s ∧ ∀ c, r = .ok c → c = stored s
  target : ∀ {s s' : σ} {r}, ix.target s = (r, s') → stored s' = stored s
  count : ∀ (c : Counter) (s : σ), stored (loop.count c s) = stored s
  committed : ∀ {s s' : σ} {a b : Nat}, stored s = some a → a < b → ix.cover (a + 1) b s = (.ok (), s') →
    stored s' = some b
  failed : ∀ {s s' : σ} {a b : Nat} {e : Fault}, stored s = some a → a < b →
    ix.cover (a + 1) b s = (.error e, s') → stored s' = stored s

/-- **What a tick that is due answers**: checkpoint `c`, target `h`, the calls of the tick and the state after it. -/
structure WorksOff (loop : Loop σ) (stored : σ → Option Nat) (c h : Nat) (calls : List (Call σ))
    (answer : Except Fault Outcome) (s' : σ) : Prop where
  /-- The calls are the first of the pieces, in ascending order. -/
  inOrder : calls.map Call.range <+: pieces (c + 1) h loop.schedule.batch
  /-- Nothing is called after a failure. -/
  untilFailure : ∀ d ∈ calls.dropLast, d.answer = .ok ()
  /-- No piece is started once the loop is cancelled. -/
  untilCancelled : ∀ d ∈ calls, loop.cancelled d.before = false
  indexed : answer = .ok (.indexed (c + 1) h) ↔
    calls.map Call.range = pieces (c + 1) h loop.schedule.batch ∧ ∀ d ∈ calls, d.answer = .ok ()
  failed : ∀ e, answer = .error e ↔ ∃ d ∈ calls, d.answer = .error e
  /-- The height in the answer is the stored checkpoint. -/
  interrupted : ∀ m, answer = .ok (.interrupted (c + 1) m) ↔
    (calls.map Call.range ≠ pieces (c + 1) h loop.schedule.batch ∧ ∀ d ∈ calls, d.answer = .ok ()) ∧
      loop.cancelled s' = true ∧ stored s' = some m
  complete : answer = .ok (.indexed (c + 1) h) ∨ (∃ e, answer = .error e) ∨
    ∃ m, answer = .ok (.interrupted (c + 1) m)

/-! ## One tick -/

theorem isDue_iff {c h : Nat} :
    loop.isDue ix c h = true ↔ ¬ (h ≤ c ∨ h - c < ix.lag.getD loop.schedule.lag) := by
  simp only [Loop.isDue, Bool.and_eq_true, decide_eq_true_eq]
  omega

theorem target_watched (w : Watched σ) {h : Nat} {s : σ} (hh : ix.target w.state = (.ok h, s)) :
    ix.watched.target w = (.ok h, ⟨s, w.targets ++ [h], w.calls⟩) := by
  simp only [Indexer.watched, hh]

/-- A tick that is not due asks for nothing. -/
theorem tick_skipped {s s₁ s₂ : σ} {c h : Nat} (hc : loop.checkpoint ix s = (.ok c, s₁))
    (hh : ix.target s₁ = (.ok h, s₂)) (hd : ¬ loop.isDue ix c h = true) (ts : List Nat) (ds : List (Call σ)) :
    loop.watched.tick ix.watched ⟨s, ts, ds⟩ = (.ok (.skipped c h), ⟨s₂, ts ++ [h], ds⟩) ∧
      loop.tick ix s = (.ok (.skipped c h), s₂) := by
  have hd' : ¬ loop.watched.isDue ix.watched c h = true := hd
  constructor
  · simp only [Loop.tick, Action.bind_apply, checkpoint_watched, hc, target_watched ⟨s₁, ts, ds⟩ hh, if_neg hd']
    rfl
  · simp only [Loop.tick, Action.bind_apply, hc, hh, if_neg hd]
    rfl

/-- **A tick that is due is a course** over the pieces from the checkpoint to the target. -/
theorem tick_course {s s₁ s₂ : σ} {c h : Nat} (hc : loop.checkpoint ix s = (.ok c, s₁))
    (hh : ix.target s₁ = (.ok h, s₂)) (hd : loop.isDue ix c h = true) (ts : List Nat) (ds : List (Call σ)) :
    ∃ calls answer s', loop.watched.tick ix.watched ⟨s, ts, ds⟩ = (answer, ⟨s', ts ++ [h], ds ++ calls⟩) ∧
      loop.tick ix s = (answer, s') ∧
      Course loop ix (c + 1) h (pieces (c + 1) h loop.schedule.batch) s₂ calls answer s' := by
  have hd' : loop.watched.isDue ix.watched c h = true := hd
  obtain ⟨calls, answer, s', h₁, h₂, h₃⟩ :=
    work_course loop ix (c + 1) h (h - c) (c + 1) ⟨s₂, ts ++ [h], ds⟩
  refine ⟨calls, answer, s', ?_, ?_, ?_⟩
  · simp only [Loop.tick, Action.bind_apply, checkpoint_watched, hc, target_watched ⟨s₁, ts, ds⟩ hh, if_pos hd']
    exact h₁
  · simp only [Loop.tick, Action.bind_apply, hc, hh, if_pos hd]
    exact h₂
  · have : h + 1 - (c + 1) = h - c := by omega
    rw [pieces, this]
    exact h₃

/-- A tick that cannot read checkpoint or target asks for nothing. -/
theorem tick_unread {s s' : σ} {e : Fault}
    (h : loop.checkpoint ix s = (.error e, s') ∨ ∃ c s₁, loop.checkpoint ix s = (.ok c, s₁) ∧
      ix.target s₁ = (.error e, s')) (ts : List Nat) (ds : List (Call σ)) :
    loop.watched.tick ix.watched ⟨s, ts, ds⟩ = (.error e, ⟨s', ts, ds⟩) ∧ loop.tick ix s = (.error e, s') := by
  rcases h with hc | ⟨c, s₁, hc, hh⟩
  · constructor <;> simp only [Loop.tick, Action.bind_apply, checkpoint_watched, hc]
  · have hw : ix.watched.target ⟨s₁, ts, ds⟩ = (.error e, ⟨s', ts, ds⟩) := by simp only [Indexer.watched, hh]
    constructor
    · simp only [Loop.tick, Action.bind_apply, checkpoint_watched, hc, hw]
    · simp only [Loop.tick, Action.bind_apply, hc, hh]

/-! ## The checkpoint -/

theorem Tracks.checkpoint (ht : Tracks loop ix stored) {s s' : σ} {r : Except Fault Nat}
    (h : loop.checkpoint ix s = (r, s')) : stored s' = stored s ∧ ∀ c, r = .ok c → stored s = some c := by
  unfold Loop.checkpoint at h
  rw [Action.bind_apply] at h
  rcases hl : loop.checkpoints.load ix.name s with ⟨e | c?, s₁⟩
  · obtain ⟨h₁, _⟩ := ht.load hl
    rw [hl] at h
    cases h
    exact ⟨h₁, fun _ hr => by cases hr⟩
  · obtain ⟨h₁, h₂⟩ := ht.load hl
    rw [hl] at h
    cases c? with
    | none =>
      cases h
      exact ⟨h₁, fun _ hr => by cases hr⟩
    | some c =>
      cases h
      exact ⟨h₁, fun _ hr => by cases hr; exact (h₂ _ rfl).symm⟩

/-- A piece right after the checkpoint moves it to the end of the piece or leaves it alone. -/
theorem Tracks.piece (ht : Tracks loop ix stored) {s s' : σ} {a b : Nat} {r : Except Fault Unit}
    (hs : stored s = some a) (hab : a < b) (h : loop.piece ix (a + 1) b s = (r, s')) :
    (r = .ok () → stored s' = some b) ∧ ∀ e, r = .error e → stored s' = some a := by
  unfold Loop.piece at h
  rcases hp : ix.cover (a + 1) b s with ⟨e | ⟨⟩, s₁⟩
  · have h₁ := ht.failed hs hab hp
    rw [hp] at h
    refine ⟨fun hr => ?_, fun _ _ => ?_⟩
    · subst hr
      cases e <;> cases h
    · cases e <;> cases h <;> simp [ht.count, h₁, hs]
  · have h₁ := ht.committed hs hab hp
    rw [hp] at h
    cases h
    exact ⟨fun _ => by rw [ht.count, h₁], fun _ hr => by cases hr⟩

/-- **A course moves the checkpoint over what it has committed.** -/
theorem Course.advances (ht : Tracks loop ix stored) {first target size : Nat} {ps : List (Nat × Nat)} {s s' : σ}
    {calls : List (Call σ)} {answer : Except Fault Outcome}
    (h : Course loop ix first target ps s calls answer s') : ∀ {c z : Nat}, stored s = some c →
      Tiles size (c + 1) z ps → ∃ c', stored s' = some c' ∧ c' < z ∧
        Tiles size (c + 1) (c' + 1) (covered calls) ∧ ∀ m, answer = .ok (.interrupted first m) → m = c' := by
  induction h with
  | done s =>
    intro c z hs hp
    exact ⟨c, hs, hp.le, rfl, fun m hm => by cases hm⟩
  | cancelled hc =>
    intro c z hs hp
    refine ⟨c, hs, hp.le, rfl, fun m hm => ?_⟩
    obtain ⟨rfl, -⟩ := hp
    cases hm
    omega
  | failed hc hpiece =>
    intro c z hs hp
    have hz := hp.le
    obtain ⟨rfl, hy, -⟩ := hp
    have h₁ := (ht.piece hs hy hpiece).2 _ rfl
    exact ⟨c, h₁, hz, rfl, fun m hm => by cases hm⟩
  | next hc hpiece _ ih =>
    intro c z hs hp
    obtain ⟨rfl, hy, hsize, hrest⟩ := hp
    have h₁ := (ht.piece hs hy hpiece).1 rfl
    obtain ⟨c', h₂, h₃, h₄, h₅⟩ := ih h₁ hrest
    exact ⟨c', h₂, h₃, ⟨rfl, hy, hsize, h₄⟩, h₅⟩

/-- A course over the pieces of a range answers as `WorksOff` says. -/
theorem Course.worksOff (ht : Tracks loop ix stored) {c h : Nat} {s s' : σ} {calls : List (Call σ)}
    {answer : Except Fault Outcome} (hs : stored s = some c) (hle : c ≤ h)
    (hw : Course loop ix (c + 1) h (pieces (c + 1) h loop.schedule.batch) s calls answer s') :
    WorksOff loop stored c h calls answer s' := by
  obtain ⟨c', hc', -, -, hm⟩ := hw.advances ht hs (pieces_tile (by omega))
  have hend := hw.ending
  refine ⟨hw.ranges, hw.dropLast, hw.notCancelled, ?_, ?_, ?_, ?_⟩
  · rcases hend with ⟨rfl, h₁, h₂⟩ | ⟨e, rfl, ⟨d, hd, he⟩, -⟩ | ⟨m, rfl, -, h₁, h₂⟩
    · simpa [h₁] using h₂
    · simp only [reduceCtorEq, false_iff, not_and]
      intro _ hall
      rw [hall d hd] at he
      cases he
    · simp [h₁]
  · intro e
    rcases hend with ⟨rfl, -, h₂⟩ | ⟨e', rfl, ⟨d, hd, he⟩, hu⟩ | ⟨m, rfl, -, -, h₂⟩
    · simp only [reduceCtorEq, false_iff, not_exists, not_and]
      intro d hd he
      rw [h₂ d hd] at he
      cases he
    · constructor
      · intro hee
        cases hee
        exact ⟨d, hd, he⟩
      · rintro ⟨d', hd', he'⟩
        rw [hu d' hd' e he']
    · simp only [reduceCtorEq, false_iff, not_exists, not_and]
      intro d hd he
      rw [h₂ d hd] at he
      cases he
  · intro m
    rcases hend with ⟨rfl, h₁, h₂⟩ | ⟨e, rfl, ⟨d, hd, he⟩, -⟩ | ⟨m', rfl, h₀, h₁, h₂⟩
    · simp [h₁]
    · simp only [reduceCtorEq, false_iff, not_and]
      rintro ⟨-, hall⟩
      rw [hall d hd] at he
      cases he
    · have := hm m' rfl
      subst this
      simp only [Except.ok.injEq, Outcome.interrupted.injEq, true_and, hc', Option.some.injEq]
      exact ⟨fun e => ⟨⟨h₁, h₂⟩, h₀, e⟩, fun e => e.2.2⟩
  · rcases hend with ⟨h₁, -⟩ | ⟨e, h₁, -⟩ | ⟨m, h₁, -⟩
    · exact .inl h₁
    · exact .inr (.inl ⟨e, h₁⟩)
    · exact .inr (.inr ⟨m, h₁⟩)

/-! ## Runs of ticks -/

theorem foldl_max_mono : ∀ (ts : List Nat) {a b : Nat}, a ≤ b → ts.foldl max a ≤ ts.foldl max b
  | [], _, _, h => h
  | t :: ts, a, b, h => foldl_max_mono ts (a := max a t) (b := max b t) (by omega)

theorem le_foldl_max (ts : List Nat) (a : Nat) : a ≤ ts.foldl max a := by
  induction ts generalizing a with
  | nil => exact Nat.le_refl a
  | cons t ts ih => exact Nat.le_trans (Nat.le_max_left a t) (ih _)

/-- **One tick**, whatever comes of it: the checkpoint moves over what was committed and not past the target. -/
theorem tick_advances (ht : Tracks loop ix stored) {s : σ} {c : Nat} (hs : stored s = some c) (ts : List Nat)
    (ds : List (Call σ)) : ∃ answer c' targets calls,
      loop.watched.tick ix.watched ⟨s, ts, ds⟩ = (answer, ⟨(loop.tick ix s).2, ts ++ targets, ds ++ calls⟩) ∧
      stored (loop.tick ix s).2 = some c' ∧ c' ≤ targets.foldl max c ∧
      Tiles (max loop.schedule.batch 1) (c + 1) (c' + 1) (covered calls) := by
  rcases hc : loop.checkpoint ix s with ⟨e | c₁, s₁⟩
  · obtain ⟨h₁, h₂⟩ := tick_unread (.inl hc) ts ds
    obtain ⟨h₃, -⟩ := ht.checkpoint hc
    refine ⟨.error e, c, [], [], ?_, by rw [h₂, h₃, hs], Nat.le_refl c, rfl⟩
    simp [h₁, h₂]
  obtain ⟨hs₁, hc₁⟩ := ht.checkpoint hc
  have : c₁ = c := Option.some.inj ((hc₁ _ rfl).symm.trans hs)
  subst this
  rcases hh : ix.target s₁ with ⟨e | h, s₂⟩
  · obtain ⟨h₁, h₂⟩ := tick_unread (.inr ⟨c₁, s₁, hc, hh⟩) ts ds
    have h₃ := ht.target hh
    refine ⟨.error e, c₁, [], [], ?_, by rw [h₂, h₃, hs₁, hs], Nat.le_refl c₁, rfl⟩
    simp [h₁, h₂]
  have hs₂ : stored s₂ = some c₁ := by rw [ht.target hh, hs₁, hs]
  by_cases hd : loop.isDue ix c₁ h = true
  · obtain ⟨calls, answer, s', h₁, h₂, h₃⟩ := tick_course hc hh hd ts ds
    have hle : c₁ ≤ h := by
      have := isDue_iff.mp hd
      omega
    obtain ⟨c', h₄, h₅, h₆, -⟩ := h₃.advances ht hs₂ (pieces_tile (by omega))
    refine ⟨answer, c', [h], calls, by rw [h₁, h₂], by rw [h₂, h₄], ?_, h₆⟩
    simp only [List.foldl_cons, List.foldl_nil]
    omega
  · obtain ⟨h₁, h₂⟩ := tick_skipped hc hh hd ts ds
    refine ⟨.ok (.skipped c₁ h), c₁, [h], [], ?_, by rw [h₂, hs₂], le_foldl_max [h] c₁, rfl⟩
    simp [h₁, h₂]

/-- **Any run of ticks**, by induction on the moves of the surroundings. -/
theorem ticks_advance (ht : Tracks loop ix stored) : ∀ {moves : List (σ → σ)},
    (∀ m ∈ moves, ∀ s, stored (m s) = stored s) → ∀ {s : σ} {c : Nat}, stored s = some c →
    ∀ (ts : List Nat) (ds : List (Call σ)), ∃ c' targets calls,
      loop.watched.ticks ix.watched (moves.map Watched.onState) ⟨s, ts, ds⟩ =
        ⟨loop.ticks ix moves s, ts ++ targets, ds ++ calls⟩ ∧
      stored (loop.ticks ix moves s) = some c' ∧ c' ≤ targets.foldl max c ∧
      Tiles (max loop.schedule.batch 1) (c + 1) (c' + 1) (covered calls)
  | [], _, s, c, hs, ts, ds => ⟨c, [], [], by simp [Loop.ticks], hs, Nat.le_refl c, rfl⟩
  | m :: moves, hm, s, c, hs, ts, ds => by
    have hs₁ : stored (m s) = some c := by rw [hm m List.mem_cons_self, hs]
    obtain ⟨answer, c₁, targets₁, calls₁, h₁, h₂, h₃, h₄⟩ := tick_advances ht hs₁ ts ds
    obtain ⟨c', targets, calls, h₅, h₆, h₇, h₈⟩ :=
      ticks_advance ht (fun m' hm' => hm m' (List.mem_cons_of_mem _ hm')) h₂ (ts ++ targets₁) (ds ++ calls₁)
    refine ⟨c', targets₁ ++ targets, calls₁ ++ calls, ?_, h₆, ?_, ?_⟩
    · simp only [List.map_cons, Loop.ticks, Watched.onState, h₁]
      rw [h₅, List.append_assoc, List.append_assoc]
    · rw [List.foldl_append]
      exact Nat.le_trans h₇ (foldl_max_mono targets h₃)
    · rw [covered, List.filter_append, List.map_append]
      exact h₄.append h₈

/-! ## Checkpoints in memory -/

/-- A head and checkpoints in memory. -/
structure Bench where
  head : Nat
  points : List Checkpoint

namespace Bench

/-- The checkpoint with a name. -/
def height (name : String) (b : Bench) : Option Nat := (Keyed.get? Checkpoint.indexer name b.points).map (·.height)

/-- A loop over checkpoints in memory. -/
def loopOf (schedule : Schedule) (cancelled : Bench → Bool) : Loop Bench where
  checkpoints := Checkpoint.memory.within (·.points) fun points b => { b with points }
  schedule := schedule
  cancelled := cancelled
  count _ b := b

/-- An indexer without rows, which refuses some ranges. -/
def indexer (name : String) (lag : Option Nat) (refuses : Nat → Nat → Option Fault) : Indexer Bench where
  name := name
  lag := lag
  init := pure ()
  target := fun b => (.ok b.head, b)
  cover first last :=
    match refuses first last with
    | some e => Action.fail e
    | none => (Checkpoint.memory.advance name last).within (·.points) fun points b => { b with points }

variable {name : String} {lag : Option Nat} {refuses : Nat → Nat → Option Fault} {schedule : Schedule}
  {cancelled : Bench → Bool}

/-- A checkpoint in memory moves to the end of a range that is not refused. -/
theorem cover_apply {b : Bench} {c last : Nat} (hc : b.height name = some c) (hlast : c < last) (first : Nat) :
    (indexer name lag refuses).cover first last b =
      match refuses first last with
      | some e => (.error e, b)
      | none => (.ok (), { b with points := Keyed.put Checkpoint.indexer ⟨name, last⟩ b.points }) := by
  obtain ⟨p, hp, rfl⟩ := Option.map_eq_some_iff.mp hc
  have hmax : max p.height last = last := by omega
  unfold indexer
  rcases hr : refuses first last with _ | e
  · simp only [hr, Action.within, Checkpoint.memory, hp, hmax]
  · simp only [hr, Action.fail_apply]

/-- **Checkpoints in memory are what a loop relies on.** -/
theorem tracks : Tracks (loopOf schedule cancelled) (indexer name lag refuses) (height name) where
  load h := by
    cases h
    exact ⟨rfl, fun c hc => (Except.ok.inj hc).symm⟩
  target h := by
    cases h
    rfl
  count _ _ := rfl
  committed {s s' a b} hs hab h := by
    rw [cover_apply hs hab] at h
    rcases hr : refuses (a + 1) b with _ | e <;> rw [hr] at h <;> cases h
    simp only [height, Keyed.get?_put, if_true, Option.map_some]
  failed {s s' a b e} hs hab h := by
    rw [cover_apply hs hab] at h
    rcases hr : refuses (a + 1) b with _ | e <;> rw [hr] at h <;> cases h
    rfl

end Bench

/-! ## Ticks work in order -/

/-- **Ticks work off their range in order, and the checkpoint follows them.**

One tick with checkpoint `c` and target `h` asks the indexer for nothing when there are not enough new heights.
Otherwise it works off the pieces of `c + 1 … h`, which tile the range, as `WorksOff` says.

In a run of ticks, in which the targets are any and the surroundings may move between two ticks, the checkpoint never
falls and never passes the greatest of the first checkpoint and the targets; the committed pieces of the whole run
tile the heights by which it has moved. -/
theorem ticks_in_order (ht : Tracks loop ix stored) :
    (∀ s s₁ s₂ c h, loop.checkpoint ix s = (.ok c, s₁) → ix.target s₁ = (.ok h, s₂) →
      ∃ calls answer s', loop.tick ix s = (answer, s') ∧
        loop.watched.tick ix.watched ⟨s, [], []⟩ = (answer, ⟨s', [h], calls⟩) ∧
        (h ≤ c ∨ h - c < ix.lag.getD loop.schedule.lag → calls = [] ∧ answer = .ok (.skipped c h)) ∧
        (¬ (h ≤ c ∨ h - c < ix.lag.getD loop.schedule.lag) →
          Tiles (max loop.schedule.batch 1) (c + 1) (h + 1) (pieces (c + 1) h loop.schedule.batch) ∧
          WorksOff loop stored c h calls answer s')) ∧
    (∀ moves : List (σ → σ), (∀ m ∈ moves, ∀ s, stored (m s) = stored s) → ∀ s c, stored s = some c →
      ∃ c' targets calls,
        loop.watched.ticks ix.watched (moves.map Watched.onState) ⟨s, [], []⟩ =
          ⟨loop.ticks ix moves s, targets, calls⟩ ∧
        stored (loop.ticks ix moves s) = some c' ∧ c ≤ c' ∧ c' ≤ targets.foldl max c ∧
        Tiles (max loop.schedule.batch 1) (c + 1) (c' + 1) (covered calls)) := by
  constructor
  · intro s s₁ s₂ c h hc hh
    by_cases hd : loop.isDue ix c h = true
    · obtain ⟨calls, answer, s', h₁, h₂, h₃⟩ := tick_course hc hh hd [] []
      have hdue := isDue_iff.mp hd
      have hs₂ : stored s₂ = some c := by
        obtain ⟨h₄, h₅⟩ := ht.checkpoint hc
        rw [ht.target hh, h₄, h₅ c rfl]
      refine ⟨calls, answer, s', h₂, h₁, fun h => absurd h hdue, fun _ => ⟨pieces_tile (by omega), ?_⟩⟩
      exact h₃.worksOff ht hs₂ (by omega)
    · obtain ⟨h₁, h₂⟩ := tick_skipped hc hh hd [] []
      exact ⟨[], _, s₂, h₂, h₁, fun _ => ⟨rfl, rfl⟩, fun h => absurd (isDue_iff.mpr h) hd⟩
  · intro moves hm s c hs
    obtain ⟨c', targets, calls, h₁, h₂, h₃, h₄⟩ := ticks_advance ht hm hs [] []
    exact ⟨c', targets, calls, h₁, h₂, by have := h₄.le; omega, h₃, h₄⟩

/-- A head that falls, a loop that is cancelled while it is low, and a range that is refused. -/
theorem bench_in_order :
    let loop := Bench.loopOf { lag := 3, batch := 10 } fun b => b.head == 12
    let ix := Bench.indexer "bench" none fun a b => if a = 36 ∧ b = 45 then some (.rpc "boom") else none
    let start : Bench := ⟨25, [⟨"bench", 0⟩]⟩
    let moves : List (Bench → Bench) := [id, fun b => { b with head := 12 }, fun b => { b with head := 60 }]
    (loop.ticks ix moves start).height "bench" = some 35 ∧
      ∃ c' targets calls,
        loop.watched.ticks ix.watched (moves.map Watched.onState) ⟨start, [], []⟩ =
          ⟨loop.ticks ix moves start, targets, calls⟩ ∧
        (loop.ticks ix moves start).height "bench" = some c' ∧ 0 ≤ c' ∧ c' ≤ targets.foldl max 0 ∧
        Tiles 10 1 (c' + 1) (covered calls) :=
  ⟨rfl, (ticks_in_order Bench.tracks).2 _ (by simp [Bench.height]) _ _ rfl⟩

end StakeTrail.Indexing
