import Mathlib
import StakeTrail.Fault

/-!
# Lists that are read up to the first fault

`List.mapM` reads the members of a list one after the other. It gives what comes of each of them (`mapM_eq_ok`), or
the fault of the first that cannot be read (`mapM_eq_error`). `readAll` reads a list whose members may be passed over:
what it gives belongs, one for one, to the members that are not (`readAll_eq_ok`).
-/

namespace StakeTrail.Traversal

variable {α β : Type} {f : α → Except Fault β} {l : List α} {e : Fault}

/-- **All members can be read**, and this is what comes of them. -/
theorem mapM_eq_ok {rs : List β} : l.mapM f = .ok rs ↔ List.Forall₂ (fun a r => f a = .ok r) l rs := by
  induction l generalizing rs with
  | nil => cases rs <;> simp [pure, Except.pure]
  | cons a l ih =>
    rw [List.mapM_cons]
    rcases ha : f a with e | r
    · cases rs <;> simp [bind, Except.bind, ha]
    · rcases hl : l.mapM f with e | later
      · cases rs <;> simp [bind, Except.bind, ha, hl, ← ih]
      · cases rs <;> simp [bind, Except.bind, pure, Except.pure, ha, hl, ← ih]

theorem exists_mapM_eq_ok : (∃ rs, l.mapM f = .ok rs) ↔ ∀ a ∈ l, ∃ r, f a = .ok r := by
  simp only [mapM_eq_ok]
  induction l with
  | nil => simp
  | cons a l ih =>
    rw [List.forall_mem_cons, ← ih]
    constructor
    · rintro ⟨rs, hrs⟩
      cases hrs with
      | cons ha hl => exact ⟨⟨_, ha⟩, _, hl⟩
    · rintro ⟨⟨r, ha⟩, rs, hl⟩
      exact ⟨r :: rs, .cons ha hl⟩

/-- **The first member that cannot be read** ends it with its fault. -/
theorem mapM_eq_error : l.mapM f = .error e ↔
    ∃ front a back, l = front ++ a :: back ∧ (∀ b ∈ front, ∃ r, f b = .ok r) ∧ f a = .error e := by
  constructor
  · intro h
    induction l with
    | nil => cases h
    | cons a l ih =>
      rw [List.mapM_cons] at h
      rcases ha : f a with e' | r <;> rw [ha] at h
      · cases h
        exact ⟨[], a, l, rfl, by simp, ha⟩
      · rcases hl : l.mapM f with e' | later <;> rw [hl] at h <;> cases h
        obtain ⟨front, b, back, rfl, hfront, hb⟩ := ih hl
        exact ⟨a :: front, b, back, rfl, List.forall_mem_cons.mpr ⟨⟨r, ha⟩, hfront⟩, hb⟩
  · rintro ⟨front, a, back, rfl, hfront, ha⟩
    obtain ⟨rs, hrs⟩ := exists_mapM_eq_ok.mpr hfront
    rw [List.mapM_append, hrs, List.mapM_cons, ha]
    rfl

/-! ## Members that may be passed over -/

/-- Reads a list whose members may be passed over. -/
def readAll (f : α → Except Fault (Option β)) (l : List α) : Except Fault (List β) := (l.mapM f).map List.reduceOption

variable {g : α → Except Fault (Option β)}

theorem readAll_cons (a : α) (l : List α) : readAll g (a :: l) = (do
    let r ← g a
    let rows ← readAll g l
    .ok (r.toList ++ rows)) := by
  rw [readAll, readAll, List.mapM_cons]
  rcases g a with e | r
  · rfl
  · rcases l.mapM g with e | later
    · rfl
    · cases r <;> rfl

theorem exists_readAll_eq_ok : (∃ rows, readAll g l = .ok rows) ↔ ∀ a ∈ l, ∃ r, g a = .ok r := by
  rw [← exists_mapM_eq_ok, readAll]
  rcases l.mapM g with e | rs <;> simp [Except.map]

theorem readAll_eq_error : readAll g l = .error e ↔
    ∃ front a back, l = front ++ a :: back ∧ (∀ b ∈ front, ∃ r, g b = .ok r) ∧ g a = .error e := by
  rw [← mapM_eq_error, readAll]
  rcases l.mapM g with e | rs <;> simp [Except.map]

/-- What is left is what comes of the members, less those that are passed over. -/
theorem readAll_eq_filterMap {rows : List β} (h : readAll g l = .ok rows) :
    rows = l.filterMap fun a => (g a).toOption.join := by
  rw [readAll] at h
  rcases hl : l.mapM g with e | rs <;> rw [hl] at h <;> cases h
  have hread := mapM_eq_ok.mp hl
  clear hl
  induction hread with
  | nil => rfl
  | @cons a r _ _ ha _ ih =>
    have hhere : (g a).toOption.join = r := by
      rw [ha]
      rfl
    rw [List.filterMap_cons, hhere, ← ih]
    cases r with
    | none => rw [List.reduceOption_cons_of_none]
    | some b => rw [List.reduceOption_cons_of_some]

/-- **What is left belongs to the members that are not passed over**, in their order. -/
theorem readAll_eq_ok {S : α → β → Prop} {p : α → Bool} (hnone : ∀ a, g a = .ok none → p a = false)
    (hsome : ∀ a b, g a = .ok (some b) → p a = true ∧ S a b) {rows : List β} (h : readAll g l = .ok rows) :
    List.Forall₂ S (l.filter p) rows := by
  rw [readAll] at h
  rcases hl : l.mapM g with e | rs <;> rw [hl] at h <;> cases h
  have hread := mapM_eq_ok.mp hl
  clear hl
  induction hread with
  | nil => exact .nil
  | @cons a r _ _ ha _ ih =>
    cases r with
    | none =>
      rw [List.filter_cons_of_neg (by simp [hnone a ha]), List.reduceOption_cons_of_none]
      exact ih
    | some b =>
      obtain ⟨hp, hb⟩ := hsome a b ha
      rw [List.filter_cons_of_pos hp, List.reduceOption_cons_of_some]
      exact .cons hb ih

end StakeTrail.Traversal
