import StakeTrail.Fault

/-!
# Actions

An action reads and changes a state and ends with a value or with a fault; what it did to the state before a
fault stays done. `Action.within` runs an action on a part of a larger state, and `Action.attempt` turns the
fault of an action into a value.

* `bind_apply` says what a sequence of two actions does;
* `bind_assoc` and its companions make actions a lawful monad.
-/

namespace StakeTrail

/-- A computation on a state that may fail. -/
def Action (σ α : Type) : Type := σ → Except Fault α × σ

namespace Action

variable {σ τ α β γ : Type}

/-- Runs an action. -/
def run (x : Action σ α) (s : σ) : Except Fault α × σ := x s

/-- Runs the second action on the value of the first. -/
def andThen (x : Action σ α) (f : α → Action σ β) : Action σ β := fun s =>
  match x s with
  | (.ok a, s') => f a s'
  | (.error e, s') => (.error e, s')

instance : Monad (Action σ) where
  pure a := fun s => (.ok a, s)
  bind := andThen

theorem bind_apply (x : Action σ α) (f : α → Action σ β) (s : σ) :
    (x >>= f) s = match x s with
      | (.ok a, s') => f a s'
      | (.error e, s') => (.error e, s') := rfl

@[simp] theorem pure_apply (a : α) (s : σ) : (pure a : Action σ α) s = (.ok a, s) := rfl

protected theorem bind_pure (x : Action σ α) : x >>= pure = x := by
  funext s
  rw [bind_apply]
  split <;> simp_all

protected theorem bind_assoc (x : Action σ α) (f : α → Action σ β) (g : β → Action σ γ) :
    x >>= f >>= g = x >>= fun a => f a >>= g := by
  funext s
  rw [bind_apply, bind_apply, bind_apply]
  rcases x s with ⟨_ | a, s'⟩
  · rfl
  · exact bind_apply (f a) g s'

instance : LawfulMonad (Action σ) := .mk' _ Action.bind_pure (fun _ _ => rfl) Action.bind_assoc

/-- Ends with a fault. -/
def fail (e : Fault) : Action σ α := fun s => (.error e, s)

/-- The outcome of a computation that needs no state. -/
def ofExcept (r : Except Fault α) : Action σ α := fun s => (r, s)

/-- The state. -/
def state : Action σ σ := fun s => (.ok s, s)

/-- Changes the state. -/
def update (f : σ → σ) : Action σ Unit := fun s => (.ok (), f s)

/-- The outcome of an action as a value. -/
def attempt (x : Action σ α) : Action σ (Except Fault α) := fun s =>
  match x s with
  | (r, s') => (.ok r, s')

/-- Runs an action on a part of the state. -/
def within (part : τ → σ) (put : σ → τ → τ) (x : Action σ α) : Action τ α := fun t =>
  match x (part t) with
  | (r, s) => (r, put s t)

/-- Runs an action for each member of a list, up to the first fault. -/
def each (f : α → Action σ Unit) : List α → Action σ Unit
  | [] => pure ()
  | a :: rest => do f a; each f rest

@[simp] theorem fail_apply (e : Fault) (s : σ) : (fail e : Action σ α) s = (.error e, s) := rfl

@[simp] theorem ofExcept_apply (r : Except Fault α) (s : σ) : ofExcept r s = (r, s) := rfl

@[simp] theorem state_apply (s : σ) : (state : Action σ σ) s = (.ok s, s) := rfl

@[simp] theorem update_apply (f : σ → σ) (s : σ) : update f s = (.ok (), f s) := rfl

end Action

end StakeTrail
