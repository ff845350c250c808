import StakeTrail.Action

/-!
# How actions end

`Action.Ends P x Q E` says that, from any state in `P`, the action `x` ends with a value and a state in `Q` or with a
fault and a state in `E`. There is one rule for each way to build an action:

* `Ends.bind` for sequences, in which both actions share what holds after a fault;
* `Ends.within` for actions on a part of the state, with a property of the rest that they cannot touch;
* `Ends.each` for actions over a list, with an invariant that may speak of the members done so far.
-/

namespace StakeTrail.Action

variable {σ τ α β : Type} {P O E F : σ → Prop} {Q T : α → σ → Prop} {R : β → σ → Prop}

/-- **How an action ends**: with a value and a state in `Q`, or with a fault and a state in `E`. -/
def Ends (P : σ → Prop) (x : Action σ α) (Q : α → σ → Prop) (E : σ → Prop) : Prop :=
  ∀ s, P s →
    match x s with
    | (.ok a, s') => Q a s'
    | (.error _, s') => E s'

namespace Ends

theorem of_ok {x : Action σ α} (h : Ends P x Q E) {s s' : σ} {a : α} (hs : P s) (hx : x s = (.ok a, s')) :
    Q a s' := by
  have := h s hs
  rw [hx] at this
  exact this

/-- What holds of the state at either end. -/
theorem snd {x : Action σ α} (h : Ends P x (fun _ => E) E) {s : σ} (hs : P s) : E (x s).2 := by
  have := h s hs
  rcases hx : x s with ⟨_ | _, _⟩ <;> rw [hx] at this <;> exact this

theorem mono {x : Action σ α} (h : Ends P x Q E) (hP : ∀ s, O s → P s) (hQ : ∀ a s, Q a s → T a s)
    (hE : ∀ s, E s → F s) : Ends O x T F := by
  intro s hs
  have := h s (hP s hs)
  rcases hx : x s with ⟨_ | _, _⟩ <;> rw [hx] at this
  · exact hE _ this
  · exact hQ _ _ this

/-- A stronger beginning. -/
theorem pre {x : Action σ α} (h : Ends P x Q E) (hP : ∀ s, O s → P s) : Ends O x Q E :=
  fun s hs => h s (hP s hs)

/-- A weaker end. -/
theorem post {x : Action σ α} (h : Ends P x Q E) (hQ : ∀ a s, Q a s → T a s) : Ends P x T E :=
  h.mono (fun _ hs => hs) hQ fun _ hs => hs

/-- A weaker end after a fault. -/
theorem fault {x : Action σ α} (h : Ends P x Q E) (hE : ∀ s, E s → F s) : Ends P x Q F :=
  h.mono (fun _ hs => hs) (fun _ _ hs => hs) hE

/-- Two facts about one end. -/
theorem and {x : Action σ α} (h : Ends P x Q E) (h' : Ends P x T F) :
    Ends P x (fun a s => Q a s ∧ T a s) fun s => E s ∧ F s := by
  intro s hs
  have h₁ := h s hs
  have h₂ := h' s hs
  rcases hx : x s with ⟨_ | _, _⟩ <;> rw [hx] at h₁ h₂
  · exact ⟨h₁, h₂⟩
  · exact ⟨h₁, h₂⟩

/-- A fact that the first state comes with. -/
theorem assuming {x : Action σ α} {p : Prop} (h : p → Ends P x Q E) : Ends (fun s => p ∧ P s) x Q E :=
  fun s hs => h hs.1 s hs.2

protected theorem pure {a : α} (h : ∀ s, P s → Q a s) : Ends P (pure a) Q E := h

theorem fail {e : Fault} (h : ∀ s, P s → E s) : Ends P (fail e) Q E := h

/-- A computation without a state leaves what holds of it. -/
theorem ofExcept {r : Except Fault α} : Ends P (ofExcept r) (fun a s => r = .ok a ∧ P s) P := by
  intro s hs
  rcases r with e | a
  · exact hs
  · exact ⟨rfl, hs⟩

theorem state : Ends P state (fun s s' => s = s' ∧ P s') E := fun _ hs => ⟨rfl, hs⟩

theorem update {f : σ → σ} {Q : Unit → σ → Prop} (h : ∀ s, P s → Q () (f s)) : Ends P (update f) Q E := h

/-- **One action after another.** -/
theorem bind {x : Action σ α} {f : α → Action σ β} (hx : Ends P x Q E) (hf : ∀ a, Ends (Q a) (f a) R E) :
    Ends P (x >>= f) R E := by
  intro s hs
  have := hx s hs
  rw [bind_apply]
  rcases h : x s with ⟨e | a, s'⟩ <;> rw [h] at this
  · exact this
  · exact hf a s' this

/-- **An action on a part of the state** leaves what holds of the rest. -/
theorem within {part : τ → σ} {put : σ → τ → τ} {x : Action σ α} {G : τ → Prop} (h : Ends P x Q E)
    (hpart : ∀ s t, part (put s t) = s) (hG : ∀ s t, G t → G (put s t)) :
    Ends (fun t => P (part t) ∧ G t) (x.within part put) (fun a t => Q a (part t) ∧ G t)
      (fun t => E (part t) ∧ G t) := by
  intro t ht
  have := h (part t) ht.1
  unfold Action.within
  rcases hx : x (part t) with ⟨_ | _, s⟩ <;> rw [hx] at this
  · exact ⟨(hpart s t).symm ▸ this, hG s t ht.2⟩
  · exact ⟨(hpart s t).symm ▸ this, hG s t ht.2⟩

/-- **An action for each member of a list**: `I` speaks of the members done. -/
theorem each {f : α → Action σ Unit} {I : List α → σ → Prop} : ∀ {rest : List α},
    (∀ done, ∀ a ∈ rest, Ends (I done) (f a) (fun _ => I (done ++ [a])) E) → ∀ done : List α,
    Ends (I done) (each f rest) (fun _ => I (done ++ rest)) E
  | [], _, done => Ends.pure fun s hs => by simpa using hs
  | a :: rest, h, done => by
    refine bind (h done a List.mem_cons_self) fun _ => ?_
    simpa using each (fun done b hb => h done b (List.mem_cons_of_mem _ hb)) (done ++ [a])

end Ends

/-! ## Actions over lists -/

/-- Acting on each member after a change of it is acting on the changed members. -/
theorem each_map (f : β → Action σ Unit) (g : α → β) : ∀ rows : List α,
    each (fun row => f (g row)) rows = each f (rows.map g)
  | [] => rfl
  | row :: rows => by rw [each, each_map f g rows, List.map_cons, each]

theorem each_singleton (f : α → Action σ Unit) (a : α) : each f [a] = f a := Action.bind_pure (f a)

/-- Acting on the members of two lists is acting on those of the first and then on those of the second. -/
theorem each_append (f : α → Action σ Unit) (back : List α) : ∀ front : List α,
    each f (front ++ back) = do each f front; each f back
  | [] => rfl
  | a :: front => by
    rw [List.cons_append, each, each_append f back front, each, Action.bind_assoc]

/-- Acting on the members of a list for each member of another is acting on all of them. -/
theorem each_flatMap (f : β → Action σ Unit) (g : α → List β) : ∀ rows : List α,
    each (fun row => each f (g row)) rows = each f (rows.flatMap g)
  | [] => rfl
  | row :: rows => by rw [each, each_flatMap f g rows, List.flatMap_cons, each_append]

end StakeTrail.Action
