import Mathlib
import StakeTrail.Indexing.Cursor
import StakeTrail.Proofs.Indexing.Cut

/-!
# Ranges that are cut by a cursor

`Yields` is the run of a cursor that is asked again and again.

* One step hands out the first of the pieces that are left, and no sum in it fails (`Sound.advance`).
* So a cursor comes to its end (`Sound.exists_yields`), and along one way only (`Yields.left_eq`).

**The main statement** (`range_cut`) is about any range of words, up to the greatest one.
-/

namespace StakeTrail

/-! ## Sums of words -/

namespace Word

theorem toNat_add_of_le {a b : UInt64} (h : a.toNat + b.toNat ≤ top) : (a + b).toNat = a.toNat + b.toNat := by
  rw [UInt64.toNat_add, Nat.mod_eq_of_lt]
  exact Nat.lt_succ_of_le h

theorem toNat_capped (a b : UInt64) : (capped a b).toNat = min (a.toNat + b.toNat) top := by
  unfold capped
  split
  · rename_i h
    rw [toNat_add_of_le h, Nat.min_eq_left h]
  · rename_i h
    rw [Nat.min_eq_right (Nat.le_of_not_le h)]
    rfl

theorem exists_sum {a b : UInt64} (h : a.toNat + b.toNat ≤ top) :
    ∃ w, sum a b = .ok w ∧ w.toNat = a.toNat + b.toNat :=
  ⟨a + b, if_pos h, toNat_add_of_le h⟩

theorem exists_difference {a b : UInt64} (h : b ≤ a) :
    ∃ w, difference a b = .ok w ∧ w.toNat = a.toNat - b.toNat :=
  ⟨a - b, if_pos h, UInt64.toNat_sub_of_le a b h⟩

end Word

namespace Indexing

/-! ## The run of a cursor -/

/-- A piece as heights. -/
def heights (p : UInt64 × UInt64) : Nat × Nat := (p.1.toNat, p.2.toNat)

theorem heights_injective : Function.Injective heights := by
  rintro ⟨a, b⟩ ⟨c, d⟩ h
  obtain ⟨hac, hbd⟩ := Prod.mk.inj h
  exact Prod.ext (UInt64.toNat_inj.mp hac) (UInt64.toNat_inj.mp hbd)

variable {c d : Cursor} {ps qs : List (UInt64 × UInt64)}

/-- **The run of a cursor** that is asked again and again: the pieces that it hands out, and where it then stands. -/
inductive Yields : Cursor → List (UInt64 × UInt64) → Cursor → Prop
  | refl (c : Cursor) : Yields c [] c
  | next {c d e : Cursor} {p : UInt64 × UInt64} {ps : List (UInt64 × UInt64)} :
      c.advance = .ok (some p, d) → Yields d ps e → Yields c (p :: ps) e

namespace Cursor

/-- A cursor that hands out nothing, however often it is asked. -/
def IsOver (c : Cursor) : Prop := c.advance = .ok (none, c)

/-- The pieces that are left. -/
def left (c : Cursor) : List (Nat × Nat) :=
  c.next.elim [] fun start => pieces start.toNat c.stop.toNat c.size.toNat

/-- **What holds of a cursor** wherever it stands: a piece holds a height at least, and the next one starts within the
range. -/
structure Sound (c : Cursor) : Prop where
  size_pos : 1 ≤ c.size
  next_le : ∀ start ∈ c.next, start ≤ c.stop

theorem sound_ofRange (start stop batch : UInt64) : (ofRange start stop batch).Sound where
  size_pos := by
    rw [UInt64.le_iff_toNat_le, ofRange, UInt64.toNat_max]
    exact le_max_right _ _
  next_le := fun s hs => by
    obtain ⟨hle, hs⟩ := Option.mem_ite_none_right.mp hs
    cases hs
    exact hle

theorem left_ofRange (start stop batch : UInt64) :
    (ofRange start stop batch).left = pieces start.toNat stop.toNat batch.toNat := by
  have hsize : (max batch 1).toNat = max batch.toNat 1 := UInt64.toNat_max _ _
  unfold left ofRange
  by_cases h : start ≤ stop
  · rw [if_pos h, Option.elim_some, hsize]
    exact somePieces_max_one
  · have hlt : stop.toNat < start.toNat := UInt64.lt_iff_toNat_lt.mp (UInt64.not_le.mp h)
    rw [if_neg h, Option.elim_none, pieces_nil hlt]

/-- Where a piece ends. The cap does not show, since the range ends at a word. -/
theorem toNat_last {start reach stop size : UInt64} (hsize : 1 ≤ size.toNat) (hreach : reach.toNat = size.toNat - 1) :
    (min (Word.capped start reach) stop).toNat = pieceEnd start.toNat stop.toNat size.toNat := by
  have hstop : stop.toNat ≤ Word.top := Nat.le_of_lt_succ stop.toNat_lt
  rw [UInt64.toNat_min, Word.toNat_capped, hreach, pieceEnd]
  omega

/-- **One step of a cursor** hands out the first of the pieces that are left. -/
theorem Sound.advance (h : c.Sound) : (c.IsOver ∧ c.left = []) ∨
    ∃ p d, c.advance = .ok (some p, d) ∧ d.Sound ∧ c.left = heights p :: d.left := by
  obtain ⟨_ | start, stop, size⟩ := c
  · exact .inl ⟨rfl, rfl⟩
  · right
    have hsize : 1 ≤ size.toNat := UInt64.le_iff_toNat_le.mp h.size_pos
    have hstart : start.toNat ≤ stop.toNat := UInt64.le_iff_toNat_le.mp (h.next_le start rfl)
    obtain ⟨reach, hreach, hvalue⟩ := Word.exists_difference h.size_pos
    obtain ⟨last, hlast⟩ : ∃ w, w = min (Word.capped start reach) stop := ⟨_, rfl⟩
    have hleft : (⟨some start, stop, size⟩ : Cursor).left =
        heights (start, last) :: pieces (last.toNat + 1) stop.toNat size.toNat := by
      rw [heights, hlast, toNat_last hsize hvalue]
      exact pieces_cons hstart
    by_cases hlt : last < stop
    · -- a word follows the last height, since the range goes on
      have hnext : last.toNat + 1 ≤ stop.toNat := UInt64.lt_iff_toNat_lt.mp hlt
      obtain ⟨next, hsum, hnextValue⟩ : ∃ w, Word.sum last 1 = .ok w ∧ w.toNat = last.toNat + 1 :=
        Word.exists_sum (hnext.trans (Nat.le_of_lt_succ stop.toNat_lt))
      refine ⟨(start, last), ⟨some next, stop, size⟩, ?_, ⟨h.size_pos, ?_⟩, ?_⟩
      · simp only [Cursor.advance, bind, Except.bind, hreach, ← hlast, if_pos hlt, hsum]
      · rintro _ ⟨⟩
        rwa [UInt64.le_iff_toNat_le, hnextValue]
      · rw [hleft, ← hnextValue]
        rfl
    · have hstop : stop.toNat ≤ last.toNat := UInt64.le_iff_toNat_le.mp (UInt64.not_lt.mp hlt)
      refine ⟨(start, last), ⟨none, stop, size⟩, ?_, ⟨h.size_pos, nofun⟩, ?_⟩
      · simp only [Cursor.advance, bind, Except.bind, hreach, ← hlast, if_neg hlt]
      · rw [hleft, pieces_nil (Nat.lt_succ_of_le hstop)]
        rfl

/-- **A cursor comes to its end.** -/
theorem Sound.exists_yields (h : c.Sound) : ∃ ps d, Yields c ps d ∧ d.IsOver ∧ ps.map heights = c.left := by
  obtain ⟨l, hl⟩ : ∃ l, c.left = l := ⟨_, rfl⟩
  induction l generalizing c with
  | nil =>
    rcases h.advance with ⟨hover, -⟩ | ⟨p, d, -, -, hleft⟩
    · exact ⟨[], c, .refl c, hover, hl.symm⟩
    · cases hl.symm.trans hleft
  | cons q l ih =>
    rcases h.advance with ⟨-, hleft⟩ | ⟨p, d, hstep, hd, hleft⟩
    · cases hl.symm.trans hleft
    · obtain ⟨ps, e, hps, he, hmap⟩ := ih hd (List.cons.inj (hleft.symm.trans hl)).2
      exact ⟨p :: ps, e, .next hstep hps, he, by rw [List.map_cons, hmap, hleft]⟩

end Cursor

open Cursor

/-- **What is handed out is what was left before**: a cursor stays sound, and hands out the pieces in order. -/
theorem Yields.left_eq (h : Yields c ps d) (hc : c.Sound) : d.Sound ∧ c.left = ps.map heights ++ d.left := by
  induction h with
  | refl => exact ⟨hc, rfl⟩
  | next hstep _ ih =>
    rcases hc.advance with ⟨hover, -⟩ | ⟨p, d, hstep', hd, hleft⟩
    · cases hover.symm.trans hstep
    · cases hstep.symm.trans hstep'
      obtain ⟨he, hrest⟩ := ih hd
      exact ⟨he, by rw [hleft, hrest, List.map_cons, List.cons_append]⟩

/-- The first pieces of a run that ends. -/
theorem Yields.take_eq (h : Yields c ps d) (hd : d.IsOver) : ∀ n, c.take n = .ok (ps.take n) := by
  induction h with
  | refl c =>
    rintro (_ | n)
    · rfl
    · rw [Cursor.take, hd]
      rfl
  | next hstep _ ih =>
    rintro (_ | n)
    · rfl
    · rw [Cursor.take, hstep]
      simp only [bind, Except.bind, ih hd n, Except.map, List.take_succ_cons]

/-- **A range of words is cut into pieces**, whatever its ends and the batch are. The cursor of the range comes to its
end, and no sum fails on the way; it goes one way only, and asking for a number of pieces gives the first of them. The
pieces cut the range into batches, a batch of zero acting as one, and they are those that a loop works off. -/
theorem range_cut (start stop batch : UInt64) :
    ∃ ps c, Yields (ofRange start stop batch) ps c ∧ c.IsOver ∧
      Cut start.toNat stop.toNat (max batch.toNat 1) (ps.map heights) ∧
      (∀ qs d, Yields (ofRange start stop batch) qs d →
        qs <+: ps ∧ (d.IsOver → qs = ps) ∧ ∀ e, d.advance ≠ .error e) ∧
      (∀ n, (ofRange start stop batch).take n = .ok (ps.take n)) ∧
      ps.map heights = pieces start.toNat stop.toNat batch.toNat := by
  have hsound := sound_ofRange start stop batch
  obtain ⟨ps, c, hrun, hover, hmap⟩ := hsound.exists_yields
  have hpieces := hmap.trans (left_ofRange start stop batch)
  refine ⟨ps, c, hrun, hover, hpieces ▸ pieces_cut _ _ _, fun qs d hqs => ?_, hrun.take_eq hover, hpieces⟩
  obtain ⟨hd, hleft⟩ := hqs.left_eq hsound
  obtain ⟨front, rest, rfl, hfront, hrest⟩ := List.map_eq_append_iff.mp (hmap.trans hleft)
  obtain rfl : front = qs := List.map_injective_iff.mpr heights_injective hfront
  refine ⟨List.prefix_append _ _, fun hdone => ?_, fun e he => ?_⟩
  · rcases hd.advance with ⟨-, hnil⟩ | ⟨_, _, hstep, -⟩
    · rw [List.map_eq_nil_iff.mp (hrest.trans hnil), List.append_nil]
    · cases hdone.symm.trans hstep
  · rcases hd.advance with ⟨hdone, -⟩ | ⟨_, _, hstep, -⟩
    · cases hdone.symm.trans he
    · cases hstep.symm.trans he

/-- **The topmost words**: the last piece is cut off where the words end. -/
theorem topmost_cut : ∃ c, Yields (ofRange 0xFFFFFFFFFFFFFFFA 0xFFFFFFFFFFFFFFFF 4)
    [(0xFFFFFFFFFFFFFFFA, 0xFFFFFFFFFFFFFFFD), (0xFFFFFFFFFFFFFFFE, 0xFFFFFFFFFFFFFFFF)] c ∧ c.IsOver := by
  obtain ⟨ps, c, hrun, hover, -, -, htake, -⟩ := range_cut 0xFFFFFFFFFFFFFFFA 0xFFFFFFFFFFFFFFFF 4
  have hfirst : [(0xFFFFFFFFFFFFFFFA, 0xFFFFFFFFFFFFFFFD), (0xFFFFFFFFFFFFFFFE, 0xFFFFFFFFFFFFFFFF)] = ps.take 3 :=
    Except.ok.inj (htake 3)
  have hlength : ps.length ≤ 3 := by
    have := congrArg List.length hfirst
    rw [List.length_take] at this
    simp only [List.length_cons, List.length_nil] at this
    omega
  rw [List.take_of_length_le hlength] at hfirst
  exact ⟨c, hfirst ▸ hrun, hover⟩

end Indexing

end StakeTrail
