import StakeTrail.Proofs.Indexing.Runs
import StakeTrail.Proofs.Indexing.Sessions
import StakeTrail.Proofs.Store.Keeps

/-!
# Invariants of the tables

What is known of the tables and holds after every start, every look and every range of an indexer
(`Indexer.Keeps`) needs no agreement between loops: any range may be worked off at any time, and it holds in every run
(`Runs.keeps`).
-/

namespace StakeTrail.Indexing

open StakeTrail.Action Store Session

variable {γ α β : Type} {U : Tables → Prop} {schedule : Schedule} {cancelled : Session γ → Bool}
  {ix : Indexer (Session γ)}

/-! ## Sessions -/

namespace Session.Keeps

protected theorem pure (a : α) : Keeps (γ := γ) U (pure a) := Ends.pure fun _ h => h

protected theorem fail (e : Fault) : Keeps (γ := γ) U (Action.fail e : Action (Session γ) α) := Ends.fail fun _ h => h

protected theorem ofExcept (r : Except Fault α) : Keeps (γ := γ) U (Action.ofExcept r) :=
  Ends.ofExcept.post fun _ _ h => h.2

protected theorem bind {x : Action (Session γ) α} {f : α → Action (Session γ) β} (hx : Keeps U x)
    (hf : ∀ a, Keeps U (f a)) : Keeps U (x >>= f) := Ends.bind hx hf

/-- A computation without a state, of whose value something is known. -/
protected theorem ofExcept_bind {r : Except Fault α} {f : α → Action (Session γ) β}
    (hf : ∀ a, r = .ok a → Keeps U (f a)) : Keeps U (Action.ofExcept r >>= f) :=
  Ends.bind Ends.ofExcept fun a => Ends.assuming fun ha => hf a ha

/-- An action on the database keeps what it keeps there. -/
protected theorem onStore {x : Action Database α} (h : Database.Keeps U x) : Keeps (γ := γ) U (onStore x) :=
  (h.within (G := fun _ : Session γ => True) (fun _ _ => rfl) fun _ _ h => h).mono (fun _ h => ⟨h, trivial⟩)
    (fun _ _ h => h.1) fun _ h => h.1

protected theorem state : Keeps (γ := γ) U Action.state := Ends.state.post fun _ _ h => h.2

/-- A change of the total changes no table. -/
protected theorem setLedger (ledger : Stake.Ledger) :
    Keeps (γ := γ) U (Action.update fun p => { p with ledger }) := Ends.update fun _ h => h

protected theorem checkpoint : Keeps U ((loopUntil schedule cancelled).checkpoint ix) := by
  have hload : Keeps U ((loopUntil schedule cancelled).checkpoints.load ix.name) := .onStore (.query _)
  unfold Loop.checkpoint
  apply hload.bind
  intro height
  cases height with
  | some height => exact .pure height
  | none => exact .fail _

end Session.Keeps

/-! ## Indexers and runs -/

/-- **What an indexer keeps**: it holds after its start, after a look at its target and after any range. -/
structure Indexer.Keeps (U : Tables → Prop) (ix : Indexer (Session γ)) : Prop where
  init : Session.Keeps U ix.init
  target : Session.Keeps U ix.target
  cover : ∀ first last, Session.Keeps U (ix.cover first last)

/-- The pact of loops that rely on nothing but what is known of the tables. -/
def Pact.known (U : Tables → Prop) : Pact (Session γ) where
  inv s := U s.database.tables
  later _ _ := True
  fits _ _ _ _ := True
  refl _ := trivial
  trans _ _ := trivial
  lasting _ _ := trivial

theorem Indexer.Keeps.kept (h : ix.Keeps U) : (Pact.known U).Kept (loopUntil schedule cancelled) ix where
  look s hs := by
    have hlook : Session.Keeps U ((loopUntil schedule cancelled).look ix) :=
      .bind .checkpoint fun _ => .bind h.target fun _ => .pure _
    refine hlook.mono ?_ (fun _ _ h => ⟨trivial, h, trivial⟩) fun _ h => ⟨h, trivial⟩
    rintro s' rfl
    exact hs
  cover s first last _ hs _ _ _ := by
    refine (h.cover first last).mono ?_ (fun _ _ h => ⟨trivial, h, trivial⟩) fun _ h => ⟨h, trivial⟩
    rintro s' rfl
    exact hs
  count _ _ hs := ⟨hs, trivial⟩

/-- **What every indexer keeps holds in any run.** -/
theorem Runs.keeps {fleets : Fleet (Session γ) → Prop} {moves : Session γ → Session γ → Prop}
    {starts : List Position × Session γ → Prop} (names : List String) {now : List Position × Session γ}
    (h : Runs fleets moves starts now) (hstarts : ∀ now, starts now → U now.2.database.tables)
    (hfleets : ∀ f, fleets f → f.names = names ∧ (∃ schedule cancelled, f.loop = loopUntil schedule cancelled) ∧
      ∀ ix ∈ f.indexers, ix.Keeps U)
    (hmoves : ∀ s s', moves s s' → U s.database.tables → U s'.database.tables) : U now.2.database.tables := by
  have hfits : ∀ {name : String} {s : Session γ} (p : Position), (Pact.known U).Fits name s p := by
    intro name s p
    cases p <;> exact trivial
  suffices hstands : (Pact.known U).Stands names now from hstands.inv
  refine Runs.stands h (fun now hnow => ⟨hstarts now hnow, fun _ _ p _ _ => hfits p⟩) (fun f hf => ?_)
    fun s s' hmove hs => ⟨hmoves s s' hmove hs, trivial⟩
  obtain ⟨hnames, ⟨schedule, cancelled, hloop⟩, hkeeps⟩ := hfleets f hf
  refine ⟨hnames, fun ix hix => ?_⟩
  rw [hloop]
  exact (hkeeps ix hix).kept

end StakeTrail.Indexing
