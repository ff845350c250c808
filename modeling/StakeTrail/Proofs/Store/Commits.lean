import StakeTrail.Proofs.Ends
import StakeTrail.Store.Query

/-!
# What statements and commits do to the tables

`Database.Holds t` are the databases with the tables `t`, whatever statements they still refuse. A query leaves the
tables alone, a statement that is refused too, and a transaction that fails as well (`transaction_ends`).

A commit leaves the tables as they were, or with its rows written and its checkpoint moved (`batch_found_ends`); for
checkpoints below 0x8000000000000000 that is the greater of the two heights (`reached_advance`). A checkpoint that was
never set up counts as one at height 0, and every commit for it fails.
-/

namespace StakeTrail.Store

open StakeTrail.Action

variable {α ρ τ : Type} {t u : Tables}

/-- The databases with some tables. -/
def Database.Holds (t : Tables) (d : Database) : Prop := d.tables = t

open Database

/-! ## Statements -/

theorem statement_ends (f : Tables → α × Tables) :
    Ends (Holds t) (statement f) (fun a d => a = (f t).1 ∧ Holds (f t).2 d) (Holds t) := by
  rintro d rfl
  unfold statement
  rcases d.refusal d.statements with _ | trouble
  · exact ⟨rfl, rfl⟩
  · rfl

theorem write_ends (f : Tables → Tables) : Ends (Holds t) (write f) (fun _ => Holds (f t)) (Holds t) :=
  (statement_ends _).post fun _ _ h => h.2

theorem query_ends (f : Tables → α) :
    Ends (Holds t) (query f) (fun a d => a = f t ∧ Holds t d) (Holds t) :=
  statement_ends _

theorem contact_ends {U : Tables → Prop} :
    Ends (fun d => U d.tables) contact (fun _ d => U d.tables) fun d => U d.tables := by
  intro d hd
  refine ((query_ends (t := d.tables) fun _ => ()).mono (fun _ h => h) (fun _ d' h => ?_) fun d' h => ?_) d rfl
  · rwa [show d'.tables = d.tables from h.2]
  · rwa [show d'.tables = d.tables from h]

/-- **A transaction that fails leaves the tables as they were.** -/
theorem transaction_ends {U : Tables → Prop} {E : Database → Prop} {body : Action Database α}
    (h : Ends (Holds t) body (fun _ d => U d.tables) E) :
    Ends (Holds t) (transaction body) (fun _ d => U d.tables) (Holds t) := by
  have whole : Ends (Holds t) (do contact; let a ← body; contact; pure a) (fun _ d => U d.tables) fun _ => True :=
    ((contact_ends (U := fun v => v = t)).fault fun _ _ => trivial).bind fun _ =>
      (h.fault fun _ _ => trivial).bind fun _ =>
        ((contact_ends (U := U)).fault fun _ _ => trivial).bind fun _ => Ends.pure fun _ hs => hs
  intro d hd
  unfold transaction
  rcases hx : (do contact; let a ← body; contact; pure a : Action Database α) d with ⟨e | a, d'⟩
  · simp only [hx]
    exact hd
  · simp only [hx]
    exact whole.of_ok hd hx

/-- Rows that are written one after the other. -/
theorem each_write_ends (f : ρ → Tables → Tables) (rows : List ρ) :
    Ends (Holds t) (each (fun row => write (f row)) rows)
      (fun _ => Holds (rows.foldl (fun t row => f row t) t)) fun _ => True := by
  refine (Ends.each (I := fun done => Holds (done.foldl (fun t row => f row t) t)) (fun done a _ => ?_) []).post
    fun _ _ hd => hd
  exact (write_ends (f a)).mono (fun _ hs => hs) (fun _ _ hs => by simpa using hs) fun _ _ => trivial

/-- **Changes of one table**, each in its own way: `part` reads the table out of all tables and `set` puts it back. -/
theorem foldl_into (f : ρ → List τ → List τ) (part : Tables → List τ) (set : List τ → Tables → Tables)
    (part_set : ∀ l t, part (set l t) = l) (set_set : ∀ l m t, set l (set m t) = set l t)
    (set_part : ∀ t, set (part t) t = t) (rows : List ρ) (t : Tables) :
    rows.foldl (fun t row => set (f row (part t)) t) t = set (rows.foldl (fun l row => f row l) (part t)) t := by
  induction rows generalizing t with
  | nil => exact (set_part t).symm
  | cons row rows ih =>
    rw [List.foldl_cons, ih, part_set, set_set]
    rfl

/-- Rows that are written into one table. -/
theorem each_into_ends (f : ρ → List τ → List τ) (part : Tables → List τ) (set : List τ → Tables → Tables)
    (part_set : ∀ l t, part (set l t) = l) (set_set : ∀ l m t, set l (set m t) = set l t)
    (set_part : ∀ t, set (part t) t = t) (rows : List ρ) :
    Ends (Holds t) (each (fun row => write fun t => set (f row (part t)) t) rows)
      (fun _ => Holds (set (rows.foldl (fun l row => f row l) (part t)) t)) fun _ => True := by
  rw [← foldl_into f part set part_set set_set set_part]
  exact each_write_ends _ rows

/-- Rows that are written over those with their key. -/
theorem each_put_ends {κ : Type} [DecidableEq κ] (key : ρ → κ) (part : Tables → List ρ)
    (set : List ρ → Tables → Tables) (part_set : ∀ l t, part (set l t) = l)
    (set_set : ∀ l m t, set l (set m t) = set l t) (set_part : ∀ t, set (part t) t = t) (rows : List ρ) :
    Ends (Holds t) (each (fun row => write fun t => set (Keyed.put key row (part t)) t) rows)
      (fun _ => Holds (set (Keyed.putAll key rows (part t)) t)) fun _ => True :=
  each_into_ends (Keyed.put key) part set part_set set_set set_part rows

/-! ## Checkpoints -/

/-- A checkpoint moves forward, and the others stay. -/
theorem checkpoint?_advance_map (name other : String) (height : Nat) :
    (t.advance name height).checkpoint? other =
      (t.checkpoint? other).map fun c =>
        if c.indexer = name ∧ before c.height height then ⟨name, height⟩ else c := by
  unfold Tables.checkpoint? Tables.advance
  refine Keyed.get?_map (fun c => ?_) other t.checkpoints
  split
  · rename_i h
    exact h.1.symm
  · rfl

/-- **A checkpoint moves to the greater of the two heights.** -/
theorem checkpoint?_advance {name : String} {c height : Nat} (h : t.checkpoint? name = some ⟨name, c⟩)
    (hc : c < 0x8000000000000000) (hh : height < 0x8000000000000000) :
    (t.advance name height).checkpoint? name = some ⟨name, max c height⟩ := by
  have hb : before c height = true ↔ c < height := by
    simp only [before, Word.signed_of_lt hc, Word.signed_of_lt hh, decide_eq_true_eq, Int.ofNat_lt]
  rw [checkpoint?_advance_map, h, Option.map_some]
  simp only [true_and, hb]
  split
  · rw [Nat.max_eq_right (by omega)]
  · rw [Nat.max_eq_left (by omega)]

/-- The checkpoints of other indexers stay. -/
theorem checkpoint?_advance_of_ne {name other : String} (h : other ≠ name) (height : Nat) :
    (t.advance name height).checkpoint? other = t.checkpoint? other := by
  rw [checkpoint?_advance_map]
  rcases hc : t.checkpoint? other with _ | c
  · rfl
  · have : c.indexer ≠ name := by
      rw [Keyed.key_of_get? hc]
      exact h
    simp [this]

/-- No checkpoint disappears. -/
theorem checkpoint?_advance_isSome {name other : String} (height : Nat) (h : ∃ c, t.checkpoint? other = some c) :
    ∃ c, (t.advance name height).checkpoint? other = some c := by
  obtain ⟨c, hc⟩ := h
  rw [checkpoint?_advance_map, hc]
  exact ⟨_, rfl⟩

theorem load_ends (name : String) :
    Ends (Holds t) (checkpoints.load name)
      (fun c d => c = (t.checkpoint? name).map (fun c => Word.readBack c.height) ∧ Holds t d) (Holds t) := by
  simp only [checkpoints]
  exact query_ends _

/-- A checkpoint can be moved only if it was set up. -/
theorem advanceCheckpoint_ends (name : String) (height : Nat) :
    Ends (Holds t) (advanceCheckpoint name height)
      (fun _ d => (∃ c, t.checkpoint? name = some c) ∧ Holds (t.advance name height) d) fun _ => True := by
  unfold advanceCheckpoint
  refine ((statement_ends _).fault fun _ _ => trivial).bind fun moved => Ends.assuming ?_
  rintro rfl
  split
  · rename_i hbelow
    refine Ends.pure fun _ hs => ⟨?_, hs⟩
    simp only [Tables.isBelow] at hbelow
    split at hbelow
    · rename_i c hc
      exact ⟨c, hc⟩
    · cases hbelow
  · refine ((query_ends _).fault fun _ _ => trivial).bind fun found => Ends.assuming fun hfound => ?_
    split
    · refine Ends.pure fun _ hs => ⟨?_, hs⟩
      rw [checkpoint?_advance_map] at hfound
      obtain ⟨c, hc, -⟩ := Option.map_eq_some_iff.mp hfound.symm
      exact ⟨c, hc⟩
    · exact Ends.fail fun _ _ => trivial

/-! ## Heights -/

/-- The height of a checkpoint, or 0 where it was never set up. -/
def Tables.reached (t : Tables) (name : String) : Nat := ((t.checkpoint? name).map (·.height)).getD 0

theorem reached_of_some {name : String} {c : Nat} (h : t.checkpoint? name = some ⟨name, c⟩) : t.reached name = c := by
  simp [Tables.reached, h]

/-- A checkpoint that was set up moves to the greater of the two heights, whatever rows are written with it. -/
theorem reached_advance {name : String} {height : Nat} (hu : u.checkpoints = t.checkpoints)
    (h : ∃ c, t.checkpoint? name = some c) (hc : t.reached name < 0x8000000000000000)
    (hh : height < 0x8000000000000000) : (u.advance name height).reached name = max (t.reached name) height := by
  have hsame : u.checkpoint? name = t.checkpoint? name := by rw [Tables.checkpoint?, Tables.checkpoint?, hu]
  obtain ⟨⟨n, c⟩, hsome⟩ := h
  have hn : n = name := Keyed.key_of_get? hsome
  subst hn
  rw [reached_of_some hsome] at hc ⊢
  exact reached_of_some (checkpoint?_advance (hsame.trans hsome) hc hh)

theorem reached_advance_of_ne {name other : String} (h : other ≠ name) (height : Nat) :
    (t.advance name height).reached other = t.reached other := by
  rw [Tables.reached, checkpoint?_advance_of_ne h, Tables.reached]

/-- No checkpoint moves back, whatever rows are written. -/
theorem reached_le_advance {name : String} {height : Nat} (hu : u.checkpoints = t.checkpoints)
    (h : ∃ c, t.checkpoint? name = some c) (hc : t.reached name < 0x8000000000000000)
    (hh : height < 0x8000000000000000) (other : String) : t.reached other ≤ (u.advance name height).reached other := by
  by_cases ho : other = name
  · rw [ho, reached_advance hu h hc hh]
    exact Nat.le_max_left _ _
  · have hsame : u.reached other = t.reached other := by
      rw [Tables.reached, Tables.reached, Tables.checkpoint?, Tables.checkpoint?, hu]
    exact Nat.le_of_eq (by rw [reached_advance_of_ne ho, hsame])

/-- Setting up a checkpoint moves none. -/
theorem reached_setup (name other : String) :
    ({ t with checkpoints := Keyed.keep Checkpoint.indexer ⟨name, 0⟩ t.checkpoints } : Tables).reached other =
      t.reached other := by
  unfold Tables.reached Tables.checkpoint? Keyed.keep
  rcases hg : Keyed.get? Checkpoint.indexer name t.checkpoints with _ | c
  · simp only
    rw [← Keyed.put_of_none hg, Keyed.get?_put]
    split
    · rename_i hname
      subst hname
      simp [hg]
    · rfl
  · rfl

/-! ## Commits -/

/-- **A commit writes its rows and moves its checkpoint**, which was set up, or leaves the tables as they were. -/
theorem batch_found_ends {name : String} {height : Nat} {rows : Action Database Unit} {U : Tables → Prop}
    (h : Ends (Holds t) rows (fun _ d => U d.tables) fun _ => True) :
    Ends (Holds t) (Commit.batch name height rows)
      (fun _ d => ∃ u, U u ∧ (∃ c, u.checkpoint? name = some c) ∧ Holds (u.advance name height) d) (Holds t) := by
  refine transaction_ends
    (U := fun v => ∃ u, U u ∧ (∃ c, u.checkpoint? name = some c) ∧ v = u.advance name height) (h.bind fun _ d hd => ?_)
  exact ((advanceCheckpoint_ends name height).post fun _ _ hd' => ⟨d.tables, hd, hd'.1, hd'.2⟩) d rfl

/-- A commit, whatever is known of its checkpoint. -/
theorem batch_ends {name : String} {height : Nat} {rows : Action Database Unit} {U : Tables → Prop}
    (h : Ends (Holds t) rows (fun _ d => U d.tables) fun _ => True) :
    Ends (Holds t) (Commit.batch name height rows) (fun _ d => ∃ u, U u ∧ Holds (u.advance name height) d)
      (Holds t) :=
  (batch_found_ends h).post fun _ _ ⟨u, hu, _, hd⟩ => ⟨u, hu, hd⟩

/-- A commit whose rows leave no choice, for a checkpoint that was set up. -/
theorem batch_found_ends_of {name : String} {height : Nat} {rows : Action Database Unit}
    (h : Ends (Holds t) rows (fun _ => Holds u) fun _ => True) :
    Ends (Holds t) (Commit.batch name height rows)
      (fun _ d => (∃ c, u.checkpoint? name = some c) ∧ Holds (u.advance name height) d) (Holds t) :=
  (batch_found_ends (U := fun v => v = u) h).post fun _ _ ⟨_, hu, hc, hd⟩ => ⟨hu ▸ hc, hu ▸ hd⟩

/-- A commit whose rows leave no choice. -/
theorem batch_ends_of {name : String} {height : Nat} {rows : Action Database Unit}
    (h : Ends (Holds t) rows (fun _ => Holds u) fun _ => True) :
    Ends (Holds t) (Commit.batch name height rows) (fun _ => Holds (u.advance name height)) (Holds t) :=
  (batch_ends (U := fun v => v = u) h).post fun _ _ ⟨_, hu, hd⟩ => hu ▸ hd

theorem consensusBlocks_ends (name : String) (rows : List ConsensusBlock) (height : Nat) :
    Ends (Holds t) (Commit.consensusBlocks name rows height)
      (fun _ => Holds (Tables.advance name height
        { t with consensusBlocks := Keyed.putAll ConsensusBlock.height rows t.consensusBlocks }))
      (Holds t) :=
  batch_ends_of (each_put_ends ConsensusBlock.height (fun t => t.consensusBlocks)
    (fun rows t => { t with consensusBlocks := rows }) (fun _ _ => rfl) (fun _ _ _ => rfl) (fun _ => rfl) rows)

theorem totals_ends (name : String) (rows : List Stake.Point) (height : Nat) :
    Ends (Holds t) (Commit.totals name rows height)
      (fun _ => Holds (Tables.advance name height { t with totals := Keyed.putAll Stake.Point.time rows t.totals }))
      (Holds t) :=
  batch_ends_of (each_put_ends Stake.Point.time (fun t => t.totals)
    (fun rows t => { t with totals := rows }) (fun _ _ => rfl) (fun _ _ _ => rfl) (fun _ => rfl) rows)

end StakeTrail.Store
