import StakeTrail.Proofs.Store.Commits

/-!
# What is known of the tables

`Database.Keeps U x` says that whatever is known of the tables, `U`, is known of them after the action `x` on the
database too, whether it ends with a value or with a fault. There is one rule for each way to build an action; a sequence
is that of `Action.Ends`.

A commit keeps what its rows keep, if moving a checkpoint keeps it (`Database.Keeps.batch`).
-/

namespace StakeTrail.Store.Database

open StakeTrail.Action

variable {α ρ : Type} {U : Tables → Prop}

/-- **What is known of the tables** holds after an action on the database, whatever comes of it. -/
def Keeps (U : Tables → Prop) (x : Action Database α) : Prop :=
  Ends (fun d => U d.tables) x (fun _ d => U d.tables) fun d => U d.tables

namespace Keeps

protected theorem pure (a : α) : Keeps U (pure a) := Ends.pure fun _ h => h

protected theorem fail (e : Fault) : Keeps U (Action.fail e : Action Database α) := Ends.fail fun _ h => h

protected theorem ofExcept (r : Except Fault α) : Keeps U (Action.ofExcept r) :=
  Ends.ofExcept.post fun _ _ h => h.2

/-- A statement that is refused changes no table. -/
protected theorem statement {f : Tables → α × Tables} (hf : ∀ t, U t → U (f t).2) : Keeps U (statement f) := by
  intro d hd
  unfold statement
  rcases d.refusal d.statements with _ | trouble
  · exact hf d.tables hd
  · exact hd

protected theorem write {f : Tables → Tables} (hf : ∀ t, U t → U (f t)) : Keeps U (write f) := .statement hf

protected theorem query (f : Tables → α) : Keeps U (query f) := .statement fun _ h => h

/-- One action after another, whatever the value of the first. -/
protected theorem bind {β : Type} {x : Action Database α} {f : α → Action Database β} (hx : Keeps U x)
    (hf : ∀ a, Keeps U (f a)) : Keeps U (x >>= f) := Ends.bind hx hf

protected theorem each {f : ρ → Action Database Unit} {rows : List ρ} (h : ∀ row ∈ rows, Keeps U (f row)) :
    Keeps U (Action.each f rows) :=
  (Ends.each (I := fun _ (d : Database) => U d.tables) (fun _ row hrow => h row hrow) []).post fun _ _ hd => hd

/-- Rows that are written one after the other. -/
protected theorem each_write {f : ρ → Tables → Tables} {rows : List ρ} (h : ∀ row ∈ rows, ∀ t, U t → U (f row t)) :
    Keeps U (Action.each (fun row => Database.write (f row)) rows) :=
  .each fun row hrow => .write (h row hrow)

/-- **A transaction** keeps what its statements keep: if it fails, the tables are what they were. -/
protected theorem transaction {body : Action Database α} (h : Keeps U body) : Keeps U (transaction body) := by
  intro d hd
  have hbody : Ends (Holds d.tables) body (fun _ d => U d.tables) fun _ => True :=
    h.mono (fun d' hd' => by rwa [show d'.tables = _ from hd']) (fun _ _ hd => hd) fun _ _ => trivial
  refine ((transaction_ends hbody).fault fun d' hd' => ?_) d rfl
  rwa [show d'.tables = d.tables from hd']

protected theorem advanceCheckpoint {name : String} {height : Nat} (h : ∀ t, U t → U (t.advance name height)) :
    Keeps U (advanceCheckpoint name height) := by
  apply Keeps.bind (.statement h)
  intro moved
  split
  · exact .pure ()
  · apply Keeps.bind (.query _)
    intro found
    cases found with
    | some c => exact .pure ()
    | none => exact .fail _

/-- **A commit** keeps what its rows keep. -/
protected theorem batch {name : String} {height : Nat} {rows : Action Database Unit}
    (hadvance : ∀ t, U t → U (t.advance name height)) (hrows : Keeps U rows) :
    Keeps U (Commit.batch name height rows) :=
  .transaction (hrows.bind fun _ => .advanceCheckpoint hadvance)

/-- A delta goes to the row of its own address, whatever was found there. -/
protected theorem addReward {delta : Reward.Delta} (h : ∀ amount height : Nat, ∀ t, U t →
    U { t with rewards := Keyed.put RewardRow.address ⟨delta.address, toString amount, height⟩ t.rewards }) :
    Keeps U (addReward delta) := by
  have hwrite : ∀ stored, Keeps U (Database.write fun t =>
      { t with
        rewards := Keyed.put RewardRow.address
          ⟨(Reward.merge stored delta).address, toString (Reward.merge stored delta).amount,
            (Reward.merge stored delta).height⟩ t.rewards }) := by
    intro stored
    have haddress : (Reward.merge stored delta).address = delta.address := by cases stored <;> rfl
    rw [haddress]
    exact .write (h _ _)
  unfold Store.addReward
  apply Keeps.bind (.query _)
  intro row
  cases row with
  | none => exact Keeps.bind (.pure none) hwrite
  | some r =>
    apply Keeps.bind (.ofExcept (readReward r.amount))
    intro amount
    exact Keeps.bind (.pure _) hwrite

end Keeps

end StakeTrail.Store.Database
