import StakeTrail.Indexing.Consensus
import StakeTrail.Proofs.Indexing.Turns
import StakeTrail.Proofs.Store.Commits

/-!
# What indexers do to a session

`Session.At t l` are the sessions with the tables `t` and the total `l`; cache, counts and the mark of cancellation may
be any. Actions on the database keep the total (`onStore_ends`), actions on the cache keep both (`onCache_ends`).

`Sustains.tick` carries an invariant over a tick: it is enough that the pieces right after the checkpoint keep it.
-/

namespace StakeTrail.Indexing

open StakeTrail.Action Store Database

variable {γ α σ : Type}

namespace Session

variable {t : Tables} {l : Stake.Ledger}

/-- The sessions with some tables and some total. -/
def At (t : Tables) (l : Stake.Ledger) (s : Session γ) : Prop := s.database.tables = t ∧ s.ledger = l

theorem onStore_ends {x : Action Database α} {Q : α → Database → Prop} (h : Ends (Holds t) x Q (Holds t)) :
    Ends (At t l) (onStore x) (fun a (s : Session γ) => Q a s.database ∧ s.ledger = l) (At t l) :=
  h.within (G := fun s : Session γ => s.ledger = l) (fun _ _ => rfl) fun _ _ h => h

/-- A statement that changes no table. -/
theorem onStore_reads {x : Action Database α} {Q : α → Prop}
    (h : Ends (Holds t) x (fun a d => Q a ∧ Holds t d) (Holds t)) :
    Ends (At t l) (onStore x) (fun a (s : Session γ) => Q a ∧ At t l s) (At t l) :=
  (onStore_ends h).post fun _ _ ⟨⟨ha, ht⟩, hl⟩ => ⟨ha, ht, hl⟩

/-- A cache cannot touch the tables. -/
theorem onCache_ends {x : Action γ α} : Ends (At t l) (onCache x) (fun _ => At t l) (At t l) := by
  have h : Ends (fun _ => True) x (fun _ _ => True) fun _ => True := by
    intro c _
    rcases x c with ⟨_ | _, _⟩ <;> exact trivial
  have hw : Ends _ (onCache x) _ _ := h.within (G := At t l) (fun _ _ => rfl) fun _ _ h => h
  exact hw.mono (fun _ h => ⟨trivial, h⟩) (fun _ _ h => h.2) fun _ h => h.2

/-- Whatever is known of the tables holds after an action on the cache. -/
theorem onCache_keeps {x : Action γ α} {U : Tables → Prop} :
    Ends (fun s : Session γ => U s.database.tables) (onCache x) (fun _ s => U s.database.tables)
      fun s => U s.database.tables := by
  intro s hs
  have keep : ∀ s' : Session γ, At s.database.tables s.ledger s' → U s'.database.tables := fun s' h => by rwa [h.1]
  exact (onCache_ends.mono (fun _ h => h) (fun _ => keep) keep) s ⟨rfl, rfl⟩

/-- The loop of a session that is cancelled whenever `cancelled` says so. -/
def loopUntil (schedule : Schedule) (cancelled : Session γ → Bool) : Loop (Session γ) :=
  { Session.loop schedule with cancelled }

/-- **What is known of the tables** holds after an action, whatever comes of it. -/
def Keeps (U : Tables → Prop) (x : Action (Session γ) α) : Prop :=
  Ends (fun s => U s.database.tables) x (fun _ s => U s.database.tables) fun s => U s.database.tables

namespace Keeps

variable {U : Tables → Prop}

protected theorem write {f : Tables → Tables} (hf : ∀ t, U t → U (f t)) :
    Keeps U (onStore (γ := γ) (Database.write f)) := by
  intro s hs
  refine ((onStore_ends (write_ends (t := s.database.tables) f)).mono (fun _ h => h) (fun _ s' h => ?_) fun s' h => ?_) s
    ⟨rfl, rfl⟩
  · rw [show s'.database.tables = _ from h.1]
    exact hf _ hs
  · rwa [h.1]

protected theorem query (f : Tables → α) : Keeps U (onStore (γ := γ) (Database.query f)) := by
  intro s hs
  refine ((onStore_reads (query_ends (t := s.database.tables) f)).mono (fun _ h => h) (fun _ s' h => ?_) fun s' h => ?_) s
    ⟨rfl, rfl⟩
  · rwa [h.2.1]
  · rwa [h.1]

protected theorem setup {schedule : Schedule} {cancelled : Session γ → Bool} {name : String}
    (h : ∀ t, U t → U { t with checkpoints := Keyed.keep Checkpoint.indexer ⟨name, 0⟩ t.checkpoints }) :
    Keeps U ((loopUntil schedule cancelled).checkpoints.setup name) :=
  Keeps.write h

/-- **Starting a fleet** sets up checkpoints and starts the indexers, in whatever order and however far it comes. -/
protected theorem init {f : Fleet (Session γ)} (hsetup : ∀ name, Keeps U (f.loop.checkpoints.setup name))
    (hinit : ∀ ix ∈ f.indexers, Keeps U ix.init) : Keeps U f.init := by
  refine (Ends.each (I := fun _ (s : Session γ) => U s.database.tables) (fun _ ix hix => ?_) []).post fun _ _ h => h
  exact (hsetup ix.name).bind fun _ => hinit ix hix

end Keeps

theorem setup_ends (schedule : Schedule) (name : String) :
    Ends (At t l) ((Session.loop (γ := γ) schedule).checkpoints.setup name)
      (fun _ => At { t with checkpoints := Keyed.keep Checkpoint.indexer ⟨name, 0⟩ t.checkpoints } l) (At t l) :=
  onStore_ends (write_ends fun t =>
    { t with checkpoints := Keyed.keep Checkpoint.indexer ⟨name, 0⟩ t.checkpoints })

/-- The checkpoint that a loop finds is the stored one, as a query hands it back. -/
theorem checkpoint_ends {schedule : Schedule} {cancelled : Session γ → Bool} {ix : Indexer (Session γ)} :
    Ends (At t l) ((loopUntil schedule cancelled).checkpoint ix)
      (fun c s => (t.checkpoint? ix.name).map (fun c => Word.readBack c.height) = some c ∧ At t l s) (At t l) := by
  have hload : Ends (At t l) ((loopUntil schedule cancelled).checkpoints.load ix.name)
      (fun c s => c = (t.checkpoint? ix.name).map (fun c => Word.readBack c.height) ∧ At t l s) (At t l) :=
    onStore_reads (load_ends ix.name)
  refine hload.bind fun c => Ends.assuming ?_
  rintro rfl
  split
  · rename_i c hc
    exact Ends.pure fun s hs => ⟨hc, hs⟩
  · exact Ends.fail fun s hs => hs

/-- **What a loop finds when it looks**: its checkpoint, if that is a half word, and a target of which something may be
known. -/
theorem look_ends {schedule : Schedule} {cancelled : Session γ → Bool} {ix : Indexer (Session γ)} {R : Nat → Prop}
    (htarget : Ends (At t l) ix.target (fun h s => R h ∧ At t l s) (At t l)) :
    Ends (At t l) ((loopUntil schedule cancelled).look ix)
      (fun found s => ((t.reached ix.name < 0x80000000 → found.1 = t.reached ix.name) ∧ R found.2) ∧ At t l s)
      (At t l) := by
  refine checkpoint_ends.bind fun c => Ends.assuming fun hc => ?_
  refine htarget.bind fun h => Ends.assuming fun hh => ?_
  refine Ends.pure fun s hs => ⟨⟨fun hlt => ?_, hh⟩, hs⟩
  obtain ⟨stored, hstored, rfl⟩ := Option.map_eq_some_iff.mp hc
  have hreached : t.reached ix.name = stored.height := by
    rw [Tables.reached, hstored, Option.map_some, Option.getD_some]
  rw [hreached] at hlt
  rw [hreached, Word.readBack_of_lt hlt]

/-- Setting up a checkpoint that is there changes nothing. -/
theorem keep_checkpoint {name : String} {c : Checkpoint} (h : t.checkpoint? name = some c) (d : Checkpoint)
    (hd : d.indexer = name) : Keyed.keep Checkpoint.indexer d t.checkpoints = t.checkpoints :=
  Keyed.keep_of_mem (Keyed.mem_of_get? h) ((Keyed.key_of_get? h).trans hd.symm)

end Session

/-- Whatever the stored height is, the tables stay. -/
theorem storedHeight_keeps {t : Tables} {l : Stake.Ledger} (name : String) :
    Ends (Session.At t l) (Session.onStore (γ := γ) (Consensus.storedHeight name)) (fun _ => Session.At t l)
      (Session.At t l) := by
  have hread : Ends (Holds t) (Consensus.storedHeight name) (fun _ d => True ∧ Holds t d) (Holds t) :=
    (load_ends name).bind fun _ => Ends.pure fun d hd => ⟨trivial, hd.2⟩
  exact (Session.onStore_reads hread).post fun _ _ h => h.2

/-- The stored height of any indexer, as a query hands it back. -/
theorem storedHeight_reached {t : Tables} {name : String} (h : t.reached name < 0x80000000) :
    Ends (Holds t) (Consensus.storedHeight name) (fun c d => c = t.reached name ∧ Holds t d) (Holds t) := by
  have hheight : ∀ c, c = (t.checkpoint? name).map (fun c => Word.readBack c.height) → c.getD 0 = t.reached name := by
    rintro c rfl
    rw [Tables.reached] at h ⊢
    rcases hc : t.checkpoint? name with _ | c
    · rw [Option.map_none, Option.map_none]
    · rw [hc, Option.map_some, Option.getD_some] at h
      rw [Option.map_some, Option.map_some, Option.getD_some, Option.getD_some, Word.readBack_of_lt h]
  exact (load_ends name).bind fun c => Ends.pure fun d h => ⟨hheight c h.1, h.2⟩

/-- The stored height of an indexer whose checkpoint is there. -/
theorem storedHeight_ends {t : Tables} {name : String} {C : Nat} (h : t.checkpoint? name = some ⟨name, C⟩)
    (hC : C < 0x80000000) :
    Ends (Holds t) (Consensus.storedHeight name) (fun c d => c = C ∧ Holds t d) (Holds t) := by
  have hreached := reached_of_some h
  refine (storedHeight_reached (by rwa [hreached])).post fun c d hc => ?_
  rwa [hreached] at hc

/-- What the history makes of stored changes, from the amount of the row that it goes on from. -/
def Consensus.commitChanges (amount : Int) (last : Nat) (changes : List Stake.Change) : Action (Session γ) Unit := do
  let (deltas, times) ← ofExcept (Stake.Deltas.ofChanges changes)
  let (_, rows) ← ofExcept ((Stake.Ledger.mk amount).applyByBlock deltas times)
  Session.onStore (Commit.history Consensus.historyName rows last)

/-! ## Ticks -/

variable {loop : Loop σ} {ix : Indexer σ} {At : Nat → σ → Prop} {bound : Nat}

/-- **What keeps an invariant over checkpoints**: a piece right after the checkpoint moves to its own end, or fails at
some checkpoint; targets are below the bound, and nothing else moves the checkpoint. -/
structure Sustains (loop : Loop σ) (ix : Indexer σ) (bound : Nat) (At : Nat → σ → Prop) : Prop where
  load : ∀ c, Ends (At c) (loop.checkpoint ix) (fun c' s => c' = c ∧ At c s) (At c)
  target : ∀ c, Ends (At c) ix.target (fun h s => h < bound ∧ At c s) (At c)
  count : ∀ c d s, At c s → At c (loop.count d s)
  cover : ∀ a b, a < b → b < bound → Ends (At a) (ix.cover (a + 1) b) (fun _ => At b) fun s => ∃ c, At c s

namespace Sustains

theorem piece (hs : Sustains loop ix bound At) {a b : Nat} (hab : a < b) (hb : b < bound) :
    Ends (At a) (loop.piece ix (a + 1) b) (fun _ => At b) fun s => ∃ c, At c s := by
  intro s ha
  have := hs.cover a b hab hb s ha
  unfold Loop.piece
  rcases hx : ix.cover (a + 1) b s with ⟨e | ⟨⟩, s'⟩ <;> rw [hx] at this
  · obtain ⟨c, hc⟩ := this
    cases e <;> first | exact ⟨c, hc⟩ | exact ⟨c, hs.count c _ _ hc⟩
  · exact hs.count b _ _ this

theorem work (hs : Sustains loop ix bound At) {first target : Nat} (hb : target < bound) : ∀ (left a : Nat),
    Ends (At a) (loop.work ix first target left (a + 1)) (fun _ s => ∃ c, At c s) fun s => ∃ c, At c s
  | 0, a => Ends.pure fun _ ha => ⟨a, ha⟩
  | left + 1, a => by
    intro s ha
    unfold Loop.work
    by_cases hle : a + 1 ≤ target
    · rw [if_pos hle]
      by_cases hcan : loop.cancelled s = true
      · rw [if_pos hcan]
        exact ⟨a, ha⟩
      · rw [if_neg hcan]
        have h₁ : a + 1 ≤ pieceEnd (a + 1) target loop.schedule.batch := le_pieceEnd hle
        have h₂ := pieceEnd_le (a + 1) target loop.schedule.batch
        have := hs.piece (a := a) (b := pieceEnd (a + 1) target loop.schedule.batch) (by omega) (by omega) s ha
        simp only
        rcases hx : loop.piece ix (a + 1) (pieceEnd (a + 1) target loop.schedule.batch) s with ⟨e | ⟨⟩, s'⟩ <;>
          rw [hx] at this
        · exact this
        · exact work hs hb left _ s' this
    · rw [if_neg hle]
      exact ⟨a, ha⟩

/-- **A tick keeps the invariant**, at whatever checkpoint it ends. -/
theorem tick (hs : Sustains loop ix bound At) (c : Nat) :
    Ends (At c) (loop.tick ix) (fun _ s => ∃ c, At c s) fun s => ∃ c, At c s := by
  unfold Loop.tick
  refine ((hs.load c).fault fun s ha => ⟨c, ha⟩).bind fun c' => Ends.assuming fun hc' => ?_
  subst hc'
  refine ((hs.target c').fault fun s ha => ⟨c', ha⟩).bind fun h => Ends.assuming fun hb => ?_
  split
  · exact hs.work hb _ _
  · exact Ends.pure fun s ha => ⟨c', ha⟩

end Sustains

end StakeTrail.Indexing
