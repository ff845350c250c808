import StakeTrail.Proofs.Ends

/-!
# Which faults actions end with

`Action.Gives P x Q F` says that, from any state in `P`, the action `x` ends with a value and a state in `Q` or with a
fault in `F`. It looks at the fault where `Action.Ends` looks at the state that is left. The rules are those of
`Action.Ends`; what is known of the end of an action can be taken over with `Ends.gives`.
-/

namespace StakeTrail.Action

variable {σ τ α β : Type} {P O E : σ → Prop} {Q T : α → σ → Prop} {R : β → σ → Prop} {F : Fault → Prop}

/-- **What an action gives**: a value and a state in `Q`, or a fault in `F`. -/
def Gives (P : σ → Prop) (x : Action σ α) (Q : α → σ → Prop) (F : Fault → Prop) : Prop :=
  ∀ s, P s →
    match x s with
    | (.ok a, s') => Q a s'
    | (.error e, _) => F e

/-- What is known of the end of an action, and of its faults. -/
theorem Ends.gives {x : Action σ α} (h : Ends P x Q E) (hF : ∀ s e, P s → (x s).1 = .error e → F e) :
    Gives P x Q F := by
  intro s hs
  have hend := h s hs
  have hfault := fun e => hF s e hs
  rcases hx : x s with ⟨e | a, s'⟩ <;> rw [hx] at hend hfault
  · exact hfault e rfl
  · exact hend

namespace Gives

theorem of_error {x : Action σ α} (h : Gives P x Q F) {s : σ} {e : Fault} (hs : P s) (hx : (x s).1 = .error e) :
    F e := by
  have := h s hs
  rcases hxs : x s with ⟨e' | a, s'⟩ <;> rw [hxs] at this hx <;> cases hx
  exact this

/-- A weaker end. -/
theorem post {x : Action σ α} (h : Gives P x Q F) (hQ : ∀ a s, Q a s → T a s) : Gives P x T F := by
  intro s hs
  have := h s hs
  rcases hx : x s with ⟨e | a, s'⟩ <;> rw [hx] at this
  · exact this
  · exact hQ a s' this

/-- A stronger beginning. -/
theorem pre {x : Action σ α} (h : Gives P x Q F) (hP : ∀ s, O s → P s) : Gives O x Q F :=
  fun s hs => h s (hP s hs)

/-- A fact that the first state comes with. -/
theorem assuming {x : Action σ α} {p : Prop} (h : p → Gives P x Q F) : Gives (fun s => p ∧ P s) x Q F :=
  fun s hs => h hs.1 s hs.2

protected theorem pure {a : α} (h : ∀ s, P s → Q a s) : Gives P (pure a) Q F := h

theorem fail {e : Fault} (h : F e) : Gives P (fail e) Q F := fun _ _ => h

/-- A computation without a state leaves what holds of it. -/
theorem ofExcept {r : Except Fault α} (h : ∀ e, r = .error e → F e) :
    Gives P (ofExcept r) (fun a s => r = .ok a ∧ P s) F := by
  intro s hs
  rcases r with e | a
  · exact h e rfl
  · exact ⟨rfl, hs⟩

theorem state : Gives P state (fun s s' => s = s' ∧ P s') F := fun _ hs => ⟨rfl, hs⟩

theorem update {f : σ → σ} {Q : Unit → σ → Prop} (h : ∀ s, P s → Q () (f s)) : Gives P (update f) Q F := h

/-- **One action after another.** -/
theorem bind {x : Action σ α} {f : α → Action σ β} (hx : Gives P x Q F) (hf : ∀ a, Gives (Q a) (f a) R F) :
    Gives P (x >>= f) R F := by
  intro s hs
  have := hx s hs
  rw [bind_apply]
  rcases h : x s with ⟨e | a, s'⟩ <;> rw [h] at this
  · exact this
  · exact hf a s' this

/-- **An action on a part of the state** leaves what holds of the rest. -/
theorem within {part : τ → σ} {put : σ → τ → τ} {x : Action σ α} {G : τ → Prop} (h : Gives P x Q F)
    (hpart : ∀ s t, part (put s t) = s) (hG : ∀ s t, G t → G (put s t)) :
    Gives (fun t => P (part t) ∧ G t) (x.within part put) (fun a t => Q a (part t) ∧ G t) F := by
  intro t ht
  have := h (part t) ht.1
  unfold Action.within
  rcases hx : x (part t) with ⟨e | a, s⟩ <;> rw [hx] at this
  · exact this
  · exact ⟨(hpart s t).symm ▸ this, hG s t ht.2⟩

/-- **An action for each member of a list** that keeps an invariant. -/
theorem each {f : α → Action σ Unit} : ∀ {rows : List α}, (∀ a ∈ rows, Gives P (f a) (fun _ => P) F) →
    Gives P (each f rows) (fun _ => P) F
  | [], _ => Gives.pure fun _ hs => hs
  | a :: rows, h => by
    refine bind (h a List.mem_cons_self) fun _ => ?_
    exact each fun b hb => h b (List.mem_cons_of_mem _ hb)

end Gives

end StakeTrail.Action
