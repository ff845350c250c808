import StakeTrail.Store.Commit

/-!
# Actions on the database and what is left of them

A database may refuse any statement. `Mirrors x y` says what is left of that: the action `x` on the database does to the
tables what `y` does, as long as none of its statements is refused, and else ends with a storage fault. There is one rule
for each way to build an action, and for transactions, whose counterpart is undone after a fault (`undone`).

What a whole action does is then a question about `y`, in which statements cannot fail.
-/

namespace StakeTrail.Store

open StakeTrail.Action Database

variable {α β ρ : Type} {t u : Tables} {d d' : Database}

/-! ## Statements that are not refused -/

/-- None of the statements that led from one state of a database to a later one was refused. -/
def Quiet (d d' : Database) : Prop := ∀ n, d.statements ≤ n → n < d'.statements → d.refusal n = none

/-- **What an action does to the tables**, as long as no statement is refused. -/
structure Mirrors (x : Action Database α) (y : Action Tables α) : Prop where
  refusal : ∀ d, (x d).2.refusal = d.refusal
  le : ∀ d, d.statements ≤ (x d).2.statements
  outcome : ∀ d, Quiet d (x d).2 ∧ (x d).1 = (y d.tables).1 ∧ (x d).2.tables = (y d.tables).2 ∨
    ¬ Quiet d (x d).2 ∧ (x d).1 = .error (.storage foreign)

/-- What a statement does to the tables. -/
def stated (f : Tables → α × Tables) : Action Tables α := fun t => (.ok (f t).1, (f t).2)

/-- An action that leaves the tables as they were when it fails. -/
def undone (y : Action Tables α) : Action Tables α := fun t =>
  match y t with
  | (.ok a, u) => (.ok a, u)
  | (.error e, _) => (.error e, t)

namespace Mirrors

variable {x : Action Database α} {y : Action Tables α} {f : α → Action Database β} {g : α → Action Tables β}

protected theorem pure (a : α) : Mirrors (pure a) (pure a) where
  refusal _ := rfl
  le _ := Nat.le_refl _
  outcome d := .inl ⟨fun n h₁ h₂ => by simp at h₂; omega, rfl, rfl⟩

protected theorem ofExcept (r : Except Fault α) : Mirrors (ofExcept r) (ofExcept r) where
  refusal _ := rfl
  le _ := Nat.le_refl _
  outcome d := .inl ⟨fun n h₁ h₂ => by simp at h₂; omega, rfl, rfl⟩

protected theorem fail (e : Fault) : Mirrors (fail e : Action Database α) (fail e) := .ofExcept (.error e)

/-- One statement: it is refused, or it does what it says. -/
protected theorem statement (f : Tables → α × Tables) : Mirrors (statement f) (stated f) := by
  have one : ∀ d : Database, (d.refusal d.statements = none ∧
      statement f d = (.ok (f d.tables).1, { d with statements := d.statements + 1, tables := (f d.tables).2 })) ∨
      ∃ trouble, d.refusal d.statements = some trouble ∧ statement f d = (.error (.storage foreign),
        { d with statements := d.statements + 1, refused := trouble :: d.refused }) := by
    intro d
    unfold statement
    rcases hr : d.refusal d.statements with _ | trouble
    · exact .inl ⟨rfl, rfl⟩
    · exact .inr ⟨trouble, rfl, rfl⟩
  refine ⟨fun d => ?_, fun d => ?_, fun d => ?_⟩
  · rcases one d with ⟨-, h⟩ | ⟨_, -, h⟩ <;> rw [h]
  · rcases one d with ⟨-, h⟩ | ⟨_, -, h⟩ <;> rw [h] <;> exact Nat.le_succ _
  · rcases one d with ⟨hr, h⟩ | ⟨trouble, hr, h⟩ <;> rw [h]
    · refine .inl ⟨fun n h₁ h₂ => ?_, rfl, rfl⟩
      simp only at h₂
      rwa [show n = d.statements by omega]
    · refine .inr ⟨fun hq => ?_, rfl⟩
      have := hq d.statements (Nat.le_refl _) (Nat.lt_succ_self _)
      rw [hr] at this
      cases this

protected theorem write (f : Tables → Tables) : Mirrors (write f) (update f) := .statement _

protected theorem query (f : Tables → α) : Mirrors (query f) (stated fun t => (f t, t)) := .statement _

/-- **One action after another.** -/
protected theorem bind (hx : Mirrors x y) (hf : ∀ a, Mirrors (f a) (g a)) : Mirrors (x >>= f) (y >>= g) := by
  refine ⟨fun d => ?_, fun d => ?_, fun d => ?_⟩
  · have hr := hx.refusal d
    rw [bind_apply]
    rcases hxd : x d with ⟨e | a, d'⟩ <;> rw [hxd] at hr
    · exact hr
    · exact ((hf a).refusal d').trans hr
  · have hle := hx.le d
    rw [bind_apply]
    rcases hxd : x d with ⟨e | a, d'⟩ <;> rw [hxd] at hle
    · exact hle
    · exact Nat.le_trans hle ((hf a).le d')
  · have hr := hx.refusal d
    have hle := hx.le d
    have ho := hx.outcome d
    rw [bind_apply, bind_apply]
    rcases hxd : x d with ⟨e | a, d'⟩ <;> rw [hxd] at hr hle ho <;> simp only at hr hle ho
    · rcases hy : y d.tables with ⟨e' | a', u⟩ <;> rw [hy] at ho <;> simp only [reduceCtorEq, false_and, and_false,
        false_or, Except.error.injEq] at ho
      · -- without a refusal both fail alike
        rcases ho with ⟨hq, h₁, h₂⟩ | ⟨hq, h₁⟩
        · exact .inl ⟨hq, congrArg _ h₁, h₂⟩
        · exact .inr ⟨hq, congrArg _ h₁⟩
      · exact .inr ⟨ho.1, congrArg _ ho.2⟩
    · have hle' := (hf a).le d'
      simp only [reduceCtorEq, and_false, or_false] at ho
      obtain ⟨hq, h₁, h₂⟩ := ho
      rcases hy : y d.tables with ⟨e' | a', u⟩ <;> rw [hy] at h₁ h₂ <;> cases h₁
      simp only at h₂
      subst h₂
      -- the first action was not refused, so it is the second one that decides
      have hjoin : Quiet d (f a d').2 ↔ Quiet d' (f a d').2 := by
        unfold Quiet
        rw [hr]
        refine ⟨fun h n h₁ h₂ => h n (by omega) h₂, fun h n h₁ h₂ => ?_⟩
        by_cases hn : n < d'.statements
        · exact hq n h₁ hn
        · exact h n (by omega) h₂
      rcases (hf a).outcome d' with ⟨hq', h₃, h₄⟩ | ⟨hq', h₃⟩
      · exact .inl ⟨hjoin.mpr hq', h₃, h₄⟩
      · exact .inr ⟨fun h => hq' (hjoin.mp h), h₃⟩

protected theorem each {f : ρ → Action Database Unit} {g : ρ → Action Tables Unit} (hf : ∀ r, Mirrors (f r) (g r)) :
    ∀ rows : List ρ, Mirrors (each f rows) (each g rows)
  | [] => .pure ()
  | r :: rows => (hf r).bind fun _ => Mirrors.each hf rows

/-- **A transaction** is undone when it fails. -/
protected theorem transaction (hx : Mirrors x y) : Mirrors (transaction x) (undone y) := by
  have hcontact : Mirrors contact (pure () : Action Tables Unit) := .query _
  have whole : Mirrors (do contact; let a ← x; contact; pure a) y := by
    have := hcontact.bind fun _ => hx.bind fun a => hcontact.bind fun _ => Mirrors.pure a
    simpa using this
  refine ⟨fun d => ?_, fun d => ?_, fun d => ?_⟩ <;> dsimp only [transaction]
  · have hr := whole.refusal d
    split <;> rename_i hd <;> rw [hd] at hr <;> exact hr
  · have hle := whole.le d
    split <;> rename_i hd <;> rw [hd] at hle <;> exact hle
  · have ho := whole.outcome d
    rw [undone]
    split <;> rename_i hd <;> rw [hd] at ho
    · rcases ho with ⟨hq, h₁, h₂⟩ | ⟨-, h₁⟩
      · rcases hy : y d.tables with ⟨e' | a', u⟩ <;> rw [hy] at h₁ h₂ <;> cases h₁
        exact .inl ⟨hq, rfl, h₂⟩
      · cases h₁
    · rcases ho with ⟨hq, h₁, -⟩ | ⟨hq, h₁⟩
      · rcases hy : y d.tables with ⟨e' | a', u⟩ <;> rw [hy] at h₁ <;> cases h₁
        exact .inl ⟨hq, rfl, rfl⟩
      · exact .inr ⟨hq, h₁⟩

end Mirrors

end StakeTrail.Store
