import Mathlib
import StakeTrail.Proofs.Indexing.Crews

/-!
# Indexers that do not disturb each other

A member sees the same in its crew as it would see alone, with the same turns (`alone_follows`). Cancelled loops touch
nothing any more and end after two turns (`settles`), and a loop that has found a range still has its checkpoint right
before what is left of it, since nobody else moves it (`Sound`).

**The main statement** (`indexers_apart`): the ranges that a member is asked for are a first part of those it would be asked
for alone, whatever the others do or fail to do; after a cancellation nothing more is asked for, and the loops end; and
every checkpoint is the end of a range that its own indexer committed, or is where it was.
-/

namespace StakeTrail.Indexing

variable {κ τ : Type} {height : κ → String → Option Nat} {c : Crew κ τ} {m : Member τ} {i j : Nat} {name : String}
  {now : List Position × Scene κ τ} {p : Position} {s : Scene κ τ}

/-! ## Steps -/

section Steps

variable {σ : Type} {s : σ}

/-- Whether a loop is at work on a range. -/
def Position.isAtWork : Position → Bool
  | .working .. => true
  | _ => false

/-- After a look, a loop is at work on the range it found, or not at work. -/
theorem Loop.step_look (loop : Loop σ) (ix : Indexer σ) (hcan : ¬ loop.cancelled s = true) :
    ∃ q, loop.step ix .waiting s = (q, (loop.look ix s).2) ∧
      ((∃ checkpoint target, (loop.look ix s).1 = .ok (checkpoint, target) ∧
        q = .working (checkpoint + 1) target (checkpoint + 1)) ∨ q.isAtWork = false) := by
  rw [Loop.step_waiting, if_neg hcan]
  rcases loop.look ix s with ⟨e | ⟨checkpoint, target⟩, t⟩
  · cases e <;> first | exact ⟨.waiting, rfl, .inr rfl⟩ | exact ⟨.lost, rfl, .inr rfl⟩
  · by_cases hdue : loop.isDue ix checkpoint target = true
    · exact ⟨_, if_pos hdue, .inl ⟨checkpoint, target, rfl, rfl⟩⟩
    · exact ⟨_, if_neg hdue, .inr rfl⟩

/-- After a piece, a loop is at work on the rest, or not at work. -/
theorem Loop.step_piece (loop : Loop σ) (ix : Indexer σ) (first : Nat) {target start : Nat} (hle : start ≤ target)
    (hcan : ¬ loop.cancelled s = true) :
    ∃ q, loop.step ix (.working first target start) s =
        (q, (loop.piece ix start (pieceEnd start target loop.schedule.batch) s).2) ∧
      (((loop.piece ix start (pieceEnd start target loop.schedule.batch) s).1 = .ok () ∧
        q = .working first target (pieceEnd start target loop.schedule.batch + 1)) ∨ q.isAtWork = false) := by
  rw [Loop.step, if_pos hle, if_neg hcan]
  dsimp only
  rcases loop.piece ix start (pieceEnd start target loop.schedule.batch) s with ⟨e | ⟨⟩, t⟩
  · cases e <;> first | exact ⟨.waiting, rfl, .inr rfl⟩ | exact ⟨.lost, rfl, .inr rfl⟩
  · exact ⟨_, rfl, .inl ⟨rfl, rfl⟩⟩

end Steps

/-! ## Turns -/

theorem Crew.after_concat (c : Crew κ τ) (moves : List Move) (next : Move) :
    c.after (moves ++ [next]) = c.move (c.after moves) next := by
  rw [Crew.after, Crew.after, List.foldl_append]
  rfl

/-- A turn of a member is a step of its loop. -/
theorem Crew.step_self (hm : c.members[i]? = some m) (hp : now.1[i]? = some p) :
    c.fleet.step i now = (now.1.set i (c.loop.step (m.indexer c.store) p now.2).1,
      (c.loop.step (m.indexer c.store) p now.2).2) := by
  have hix : c.fleet.indexers[i]? = some (m.indexer c.store) := by
    show (c.members.map fun m => m.indexer c.store)[i]? = _
    rw [List.getElem?_map, hm, Option.map_some]
  rw [Fleet.step]
  simp only [hix, hp]
  rfl

/-- A turn takes place at a member, or nowhere. -/
theorem Crew.step_cases (c : Crew κ τ) (j : Nat) (now : List Position × Scene κ τ) :
    (∃ m p, c.members[j]? = some m ∧ now.1[j]? = some p ∧
      c.fleet.step j now = (now.1.set j (c.loop.step (m.indexer c.store) p now.2).1,
        (c.loop.step (m.indexer c.store) p now.2).2)) ∨ c.fleet.step j now = now := by
  rcases hm : c.members[j]? with _ | m
  · refine .inr ?_
    have hix : c.fleet.indexers[j]? = none := by
      show (c.members.map fun m => m.indexer c.store)[j]? = _
      rw [List.getElem?_map, hm, Option.map_none]
    rw [Fleet.step]
    simp only [hix]
  · rcases hp : now.1[j]? with _ | p
    · refine .inr ?_
      rw [Fleet.step, hp]
      rcases c.fleet.indexers[j]? with _ | ix <;> rfl
    · exact .inl ⟨m, p, rfl, rfl, Crew.step_self hm hp⟩

section Turns

variable (hstore : c.store.Faithful height)

include hstore

/-- A turn of anybody else leaves everything of a name as it was. -/
theorem Crew.step_alike (hname : ∀ m, c.members[j]? = some m → m.name ≠ name) (now : List Position × Scene κ τ) :
    Alike height name now.2 (c.fleet.step j now).2 := by
  rcases c.step_cases j now with ⟨m, p, hm, -, hstep⟩ | hstep
  · rw [hstep]
    exact (own_step hstore rfl p).others (hname m hm).symm now.2
  · rw [hstep]
    exact .refl _

theorem Crew.move_asked (now : List Position × Scene κ τ) (next : Move) (name : String) :
    now.2.asked name <+: (c.move now next).2.asked name := by
  cases next with
  | cancel => exact List.prefix_rfl
  | turn j =>
    show _ <+: (c.fleet.step j now).2.asked name
    rcases c.step_cases j now with ⟨m, p, -, -, hstep⟩ | hstep
    · rw [hstep]
      exact (own_step hstore rfl p).grows now.2 name
    · rw [hstep]

/-- Nothing is taken back of what was asked for. -/
theorem Crew.after_asked (moves more : List Move) (name : String) :
    (c.after moves).2.asked name <+: (c.after (moves ++ more)).2.asked name := by
  induction more using List.reverseRecOn with
  | nil => rw [List.append_nil]
  | append_singleton more next ih =>
    rw [← List.append_assoc, Crew.after_concat]
    exact ih.trans (Crew.move_asked hstore _ next name)

end Turns

theorem Crew.step_positions (hne : j ≠ i) (now : List Position × Scene κ τ) :
    (c.fleet.step j now).1[i]? = now.1[i]? := by
  rcases c.step_cases j now with ⟨m, p, -, -, hstep⟩ | hstep
  · rw [hstep, List.getElem?_set_ne hne]
  · rw [hstep]

/-- Every member has a position. -/
theorem Crew.after_length (c : Crew κ τ) (moves : List Move) : (c.after moves).1.length = c.members.length := by
  induction moves using List.reverseRecOn with
  | nil => simp [Crew.after, Fleet.start, Crew.fleet]
  | append_singleton moves next ih =>
    rw [Crew.after_concat]
    cases next with
    | cancel => exact ih
    | turn j =>
      show (c.fleet.step j _).1.length = _
      rcases c.step_cases j (c.after moves) with ⟨m, p, -, -, hstep⟩ | hstep
      · rw [hstep, List.length_set, ih]
      · rw [hstep, ih]

theorem Crew.after_position (hm : c.members[i]? = some m) (moves : List Move) : ∃ p, (c.after moves).1[i]? = some p := by
  have hlt : i < c.members.length := (List.getElem?_eq_some_iff.mp hm).1
  exact ⟨_, List.getElem?_eq_getElem (by rw [c.after_length]; exact hlt)⟩

/-- Two members have different names. -/
theorem name_ne (hnames : (c.members.map Member.name).Nodup) (hm : c.members[i]? = some m) (hne : j ≠ i) :
    ∀ m', c.members[j]? = some m' → m'.name ≠ m.name := by
  intro m' hm' hsame
  have hi : (c.members.map Member.name)[i]? = some m.name := by rw [List.getElem?_map, hm, Option.map_some]
  have hj : (c.members.map Member.name)[j]? = some m.name := by rw [List.getElem?_map, hm', Option.map_some, hsame]
  have hlt : j < (c.members.map Member.name).length := (List.getElem?_eq_some_iff.mp hj).1
  exact hne ((List.getElem?_inj hlt hnames).mp (hj.trans hi.symm))

/-! ## Alone -/

/-- **A turn of a member** in its crew is its turn alone. -/
theorem Crew.step_follows (hstore : c.store.Faithful height) (hm : c.members[i]? = some m)
    {now now' : List Position × Scene κ τ} {p : Position} (hp : now.1[i]? = some p) (hp' : now'.1[0]? = some p)
    (halike : Alike height m.name now.2 now'.2) :
    ((c.alone m).fleet.step 0 now').1[0]? = (c.fleet.step i now).1[i]? ∧
      Alike height m.name (c.fleet.step i now).2 ((c.alone m).fleet.step 0 now').2 := by
  obtain ⟨hsame, hstate⟩ := (own_step hstore rfl p).same halike
  have hself := Crew.step_self hm hp
  have hself' := Crew.step_self (c := c.alone m) (m := m) rfl hp'
  have hlt := (List.getElem?_eq_some_iff.mp hp).1
  have hlt' := (List.getElem?_eq_some_iff.mp hp').1
  rw [hself, hself']
  refine ⟨?_, hstate⟩
  rw [List.getElem?_set_self hlt, List.getElem?_set_self hlt']
  exact congrArg some hsame.symm

/-- **A member sees in its crew what it would see alone.** -/
theorem alone_follows (hstore : c.store.Faithful height) (hnames : (c.members.map Member.name).Nodup)
    (hm : c.members[i]? = some m) (moves : List Move) :
    ((c.alone m).after (mine i moves)).1[0]? = (c.after moves).1[i]? ∧
      Alike height m.name (c.after moves).2 ((c.alone m).after (mine i moves)).2 := by
  induction moves using List.reverseRecOn with
  | nil =>
    refine ⟨?_, .refl _⟩
    show ((c.alone m).fleet.start)[0]? = (c.fleet.start)[i]?
    simp [Fleet.start, Crew.fleet, Crew.alone, hm]
  | append_singleton moves next ih =>
    obtain ⟨hposition, halike⟩ := ih
    rw [Crew.after_concat]
    cases next with
    | cancel =>
      rw [show mine i (moves ++ [.cancel]) = mine i moves ++ [.cancel] from List.filterMap_append, Crew.after_concat]
      exact ⟨hposition, ⟨halike.height, halike.own, halike.asked, halike.committed, rfl⟩⟩
    | turn j =>
      by_cases hj : j = i
      · -- both take the same step
        subst hj
        have hmine : mine j (moves ++ [.turn j]) = mine j moves ++ [.turn 0] := by
          simp [mine, List.filterMap_append]
        rw [hmine, Crew.after_concat]
        obtain ⟨p, hp⟩ := Crew.after_position hm moves
        exact Crew.step_follows hstore hm hp (hposition.trans hp) halike
      · have hmine : mine i (moves ++ [.turn j]) = mine i moves := by
          simp [mine, List.filterMap_append, hj]
        rw [hmine]
        refine ⟨hposition.trans (Crew.step_positions hj _).symm, ?_⟩
        exact (Crew.step_alike hstore (name_ne hnames hm hj) _).symm.trans halike

/-! ## Cancelled loops -/

/-- Where a loop goes that is cancelled. -/
def Position.resign : Position → Position
  | .working .. => .waiting
  | .waiting => .stopped
  | p => p

/-- How many turns a cancelled loop takes at most. -/
def Position.left : Position → Nat
  | .working .. => 2
  | .waiting => 1
  | .stopped | .lost => 0

theorem Position.left_resign (p : Position) : p.resign.left = p.left - 1 := by cases p <;> rfl

theorem Position.isFinal_of_left {p : Position} (h : p.left = 0) : p.isFinal = true := by
  cases p <;> first | rfl | cases h

/-- **A cancelled loop** changes nothing any more. -/
theorem step_of_cancelled (hcan : s.cancelled = true) (p : Position) :
    c.loop.step (m.indexer c.store) p s = (p.resign, s) := by
  have hcan' : c.loop.cancelled s = true := hcan
  cases p with
  | waiting => rw [Loop.step_waiting, if_pos hcan']; rfl
  | working first target start =>
    rw [Loop.step, if_pos hcan', ite_self]
    rfl
  | stopped => rfl
  | lost => rfl

theorem move_cancelled (hcan : now.2.cancelled = true) (next : Move) : (c.move now next).2 = now.2 := by
  cases next with
  | cancel =>
    obtain ⟨positions, s⟩ := now
    show { s with cancelled := true } = s
    rw [← show s.cancelled = true from hcan]
  | turn j =>
    show (c.fleet.step j now).2 = now.2
    rcases c.step_cases j now with ⟨m, p, -, -, hstep⟩ | hstep
    · rw [hstep, step_of_cancelled hcan]
    · rw [hstep]

/-- **After a cancellation** the scene stays as it is. -/
theorem after_cancel (c : Crew κ τ) (before rest : List Move) :
    (c.after (before ++ .cancel :: rest)).2 = { (c.after before).2 with cancelled := true } := by
  induction rest using List.reverseRecOn with
  | nil => rw [Crew.after_concat]; rfl
  | append_singleton rest next ih =>
    rw [show before ++ .cancel :: (rest ++ [next]) = (before ++ .cancel :: rest) ++ [next] by simp, Crew.after_concat,
      move_cancelled (by rw [ih]), ih]

/-- **A cancelled loop ends** after two turns at most. -/
theorem settles (hm : c.members[i]? = some m) (before rest : List Move) :
    ∃ p, (c.after (before ++ .cancel :: rest)).1[i]? = some p ∧ p.left ≤ 2 - rest.count (.turn i) := by
  induction rest using List.reverseRecOn with
  | nil =>
    obtain ⟨p, hp⟩ := Crew.after_position hm (before ++ [.cancel])
    refine ⟨p, hp, ?_⟩
    cases p <;> simp [Position.left]
  | append_singleton rest next ih =>
    obtain ⟨p, hp, hleft⟩ := ih
    have hcan : (c.after (before ++ .cancel :: rest)).2.cancelled = true := by rw [after_cancel]
    rw [show before ++ .cancel :: (rest ++ [next]) = (before ++ .cancel :: rest) ++ [next] by simp, Crew.after_concat,
      List.count_append]
    cases next with
    | cancel => exact ⟨p, hp, by simpa using hleft⟩
    | turn j =>
      by_cases hj : j = i
      · subst hj
        refine ⟨p.resign, ?_, ?_⟩
        · show (c.fleet.step j _).1[j]? = _
          rw [Crew.step_self hm hp, step_of_cancelled hcan, List.getElem?_set_self (List.getElem?_eq_some_iff.mp hp).1]
        · rw [Position.left_resign, List.count_singleton_self]
          omega
      · refine ⟨p, (Crew.step_positions hj _).trans hp, ?_⟩
        have hcount : List.count (Move.turn i) [.turn j] = 0 := List.count_eq_zero.mpr (by simpa using Ne.symm hj)
        rw [hcount]
        exact hleft

/-! ## Checkpoints -/

/-- What is known of the indexer of a name: it committed only what it was asked for, its checkpoint is the end of one of
those ranges or where it was before, and it lies before what is left of a range. -/
structure Sound (height : κ → String → Option Nat) (name : String) (before : Option Nat) (p : Position)
    (s : Scene κ τ) : Prop where
  listed : ∀ r ∈ s.committed name, r ∈ s.asked name
  reached : height s.points name = before ∨ ∃ r ∈ s.committed name, height s.points name = some r.2
  ready : ∀ first target start, p = .working first target start → ∃ h, height s.points name = some h ∧ h < start

variable {before : Option Nat}

theorem Sound.alike {s s' : Scene κ τ} (h : Sound height name before p s) (ha : Alike height name s s') :
    Sound height name before p s' where
  listed := by
    rw [← ha.committed, ← ha.asked]
    exact h.listed
  reached := by
    rw [← ha.committed, ← ha.height]
    exact h.reached
  ready := by
    rw [← ha.height]
    exact h.ready

/-- A loop that is not at work relies on nothing. -/
theorem Sound.idle {q : Position} (h : Sound height name before p s) (hq : q.isAtWork = false) :
    Sound height name before q s where
  listed := h.listed
  reached := h.reached
  ready first target start hworking := by
    rw [hworking] at hq
    cases hq

section Effects

variable (hstore : c.store.Faithful height)

include hstore

/-- **What a look finds**: the checkpoint, and the head by the member's own state. -/
theorem look_eq (m : Member τ) (s : Scene κ τ) : c.loop.look (m.indexer c.store) s =
    match height s.points m.name with
    | none => (.error (.checkpointMissing m.name), s)
    | some h => ((m.inside m.head s).1.map fun target => (h, target), (m.inside m.head s).2) := by
  have hload : c.loop.checkpoints.load (m.indexer c.store).name s = (.ok (height s.points m.name), s) := by
    show ((c.store.load m.name s.points).1, { s with points := (c.store.load m.name s.points).2 }) = _
    rw [hstore.load]
  simp only [Loop.look, Loop.checkpoint, Action.bind_apply, hload]
  rcases height s.points m.name with _ | h
  · rfl
  · simp only [Action.pure_apply]
    rw [show (m.indexer c.store).target s = m.inside m.head s from rfl]
    rcases m.inside m.head s with ⟨e | target, t⟩ <;> rfl

/-- A member whose checkpoint is there commits its ranges. -/
theorem commit_eq {h : Nat} (hh : height s.points m.name = some h) (first last : Nat) :
    m.commit c.store first last s = (.ok (), { s with
      points := (c.store.advance m.name last s.points).2
      committed := noted m.name (first, last) s.committed }) := by
  have hok := hstore.advance m.name last s.points
  rw [hh] at hok
  rw [Member.commit, Action.bind_apply]
  unfold Action.within
  rcases hx : c.store.advance m.name last s.points with ⟨e | ⟨⟩, k⟩ <;> rw [hx] at hok
  · cases hok
  · rfl

/-- **What a range leaves behind**: it is noted, and the checkpoint moves if it is committed. -/
theorem cover_effect {h : Nat} (hh : height s.points m.name = some h) (first last : Nat) :
    ∃ committed : Bool, (((m.indexer c.store).cover first last s).1 = .ok () → committed = true) ∧
      height ((m.indexer c.store).cover first last s).2.points m.name = some (if committed then max h last else h) ∧
      ((m.indexer c.store).cover first last s).2.asked m.name = s.asked m.name ++ [(first, last)] ∧
      ((m.indexer c.store).cover first last s).2.committed m.name =
        s.committed m.name ++ if committed then [(first, last)] else [] := by
  -- the scene in which the verdict is carried out
  obtain ⟨t, hcover, hpoints, hasked, hcommitted⟩ : ∃ t : Scene κ τ, (m.indexer c.store).cover first last s =
      m.finish c.store first last (m.verdict first last (s.own m.name)).1 t ∧
      t.points = s.points ∧ t.asked m.name = s.asked m.name ++ [(first, last)] ∧ t.committed = s.committed :=
    ⟨_, rfl, rfl, noted_self _ _, rfl⟩
  have hh' : height t.points m.name = some h := by rw [hpoints, hh]
  have hmoved : height (c.store.advance m.name last t.points).2 m.name = some (max h last) := by
    rw [hstore.moved, if_pos rfl, hh', Option.map_some]
  have hnoted : noted m.name (first, last) t.committed m.name = s.committed m.name ++ [(first, last)] := by
    rw [noted_self, hcommitted]
  rw [hcover]
  cases (m.verdict first last (s.own m.name)).1 with
  | committed =>
    rw [Member.finish, commit_eq hstore hh']
    exact ⟨true, fun _ => rfl, hmoved, hasked, hnoted⟩
  | failed e => exact ⟨false, nofun, hh', hasked, by simp [Member.finish, hcommitted]⟩
  | lost committed =>
    cases committed with
    | false => exact ⟨false, nofun, hh', hasked, by simp [Member.finish, hcommitted]⟩
    | true =>
      rw [Member.finish, Action.bind_apply, commit_eq hstore hh']
      exact ⟨true, nofun, hmoved, hasked, hnoted⟩

omit hstore in
/-- A count changes nothing else. -/
theorem piece_cover (ix : Indexer (Scene κ τ)) (first last : Nat) (s : Scene κ τ) :
    (c.loop.piece ix first last s).1 = (ix.cover first last s).1 ∧
      (c.loop.piece ix first last s).2.points = (ix.cover first last s).2.points ∧
      (c.loop.piece ix first last s).2.asked = (ix.cover first last s).2.asked ∧
      (c.loop.piece ix first last s).2.committed = (ix.cover first last s).2.committed := by
  unfold Loop.piece
  rcases ix.cover first last s with ⟨e | ⟨⟩, t⟩
  · cases e <;> exact ⟨rfl, rfl, rfl, rfl⟩
  · exact ⟨rfl, rfl, rfl, rfl⟩

/-- Looking moves no checkpoint and takes no notes. -/
theorem Sound.look (h : Sound height m.name before p s) :
    Sound height m.name before .waiting (c.loop.look (m.indexer c.store) s).2 ∧
      ∀ checkpoint target, (c.loop.look (m.indexer c.store) s).1 = .ok (checkpoint, target) →
        height (c.loop.look (m.indexer c.store) s).2.points m.name = some checkpoint := by
  rw [look_eq hstore]
  rcases hh : height s.points m.name with _ | found
  · exact ⟨h.idle rfl, nofun⟩
  · refine ⟨⟨h.listed, h.reached, nofun⟩, fun checkpoint target hok => ?_⟩
    show height s.points m.name = some checkpoint
    obtain ⟨target', -, hpair⟩ : ∃ target', (m.inside m.head s).1 = .ok target' ∧ (found, target') = (checkpoint, target) := by
      simp only [Except.map] at hok
      split at hok
      · cases hok
      · rename_i target' htarget
        exact ⟨target', htarget, Except.ok.inj hok⟩
    rw [hh, (Prod.mk.inj hpair).1]

/-- **A piece** that starts after the checkpoint is committed up to its end, or the checkpoint stays. -/
theorem Sound.piece (h : Sound height m.name before p s) {checkpoint first last : Nat}
    (hh : height s.points m.name = some checkpoint) (hlt : checkpoint < first) (hle : first ≤ last) :
    Sound height m.name before .waiting (c.loop.piece (m.indexer c.store) first last s).2 ∧
      ((c.loop.piece (m.indexer c.store) first last s).1 = .ok () →
        height (c.loop.piece (m.indexer c.store) first last s).2.points m.name = some last) := by
  obtain ⟨committed, hok, hheight, hasked, hcommitted⟩ := cover_effect hstore hh first last
  obtain ⟨hfst, hpoints, hasked', hcommitted'⟩ := piece_cover (c := c) (m.indexer c.store) first last s
  rw [← hfst] at hok
  rw [← hpoints, Nat.max_eq_right (by omega)] at hheight
  rw [← hasked'] at hasked
  rw [← hcommitted'] at hcommitted
  refine ⟨⟨fun r hr => ?_, ?_, nofun⟩, fun hfine => ?_⟩
  · rw [hcommitted] at hr
    rw [hasked]
    rcases List.mem_append.mp hr with hr | hr
    · exact List.mem_append_left _ (h.listed r hr)
    · refine List.mem_append_right _ ?_
      split at hr
      · exact hr
      · cases hr
  · rw [hheight, hcommitted]
    cases committed with
    | true => exact .inr ⟨(first, last), by simp, rfl⟩
    | false =>
      rw [if_neg (by decide), if_neg (by decide), List.append_nil, ← hh]
      exact h.reached
  · rw [hheight, hok hfine, if_pos rfl]

/-- **A step of a loop** keeps what is known of its indexer. -/
theorem Sound.step (h : Sound height m.name before p s) :
    Sound height m.name before (c.loop.step (m.indexer c.store) p s).1 (c.loop.step (m.indexer c.store) p s).2 := by
  by_cases hcan : c.loop.cancelled s = true
  · rw [step_of_cancelled hcan]
    exact h.idle (by cases p <;> rfl)
  · cases p with
    | stopped => exact h
    | lost => exact h
    | waiting =>
      obtain ⟨hlook, hfound⟩ := h.look hstore
      obtain ⟨q, hstep, ⟨checkpoint, target, hok, rfl⟩ | hq⟩ := c.loop.step_look (m.indexer c.store) hcan
      · rw [hstep]
        refine ⟨hlook.listed, hlook.reached, fun first target' start hp => ?_⟩
        cases hp
        exact ⟨checkpoint, hfound checkpoint target hok, Nat.lt_succ_self _⟩
      · rw [hstep]
        exact hlook.idle hq
    | working first target start =>
      by_cases hle : start ≤ target
      · obtain ⟨checkpoint, hh, hlt⟩ := h.ready first target start rfl
        have hend : start ≤ pieceEnd start target c.loop.schedule.batch := le_pieceEnd hle
        obtain ⟨hpiece, hmoved⟩ := h.piece hstore hh hlt hend
        obtain ⟨q, hstep, ⟨hok, rfl⟩ | hq⟩ := c.loop.step_piece (m.indexer c.store) first hle hcan
        · rw [hstep]
          refine ⟨hpiece.listed, hpiece.reached, fun first' target' start' hp => ?_⟩
          cases hp
          exact ⟨_, hmoved hok, Nat.lt_succ_self _⟩
        · rw [hstep]
          exact hpiece.idle hq
      · rw [Loop.step, if_neg hle]
        exact h.idle rfl

/-- **A run** keeps what is known of every member. -/
theorem Sound.after (hnames : (c.members.map Member.name).Nodup) (hm : c.members[i]? = some m) (moves : List Move) :
    ∃ p, (c.after moves).1[i]? = some p ∧ Sound height m.name (height c.points m.name) p (c.after moves).2 := by
  induction moves using List.reverseRecOn with
  | nil =>
    obtain ⟨p, hp⟩ := Crew.after_position hm []
    have hwaiting : p = .waiting := by
      have hstart : (c.after []).1[i]? = some .waiting := by
        show (c.fleet.start)[i]? = _
        simp [Fleet.start, Crew.fleet, hm]
      exact Option.some.inj (hp.symm.trans hstart)
    subst hwaiting
    exact ⟨_, hp, by simp [Crew.after], .inl rfl, nofun⟩
  | append_singleton moves next ih =>
    obtain ⟨p, hp, hsound⟩ := ih
    rw [Crew.after_concat]
    cases next with
    | cancel => exact ⟨p, hp, hsound.listed, hsound.reached, hsound.ready⟩
    | turn j =>
      by_cases hj : j = i
      · subst hj
        refine ⟨(c.loop.step (m.indexer c.store) p (c.after moves).2).1, ?_, ?_⟩
        · show (c.fleet.step j _).1[j]? = _
          rw [Crew.step_self hm hp, List.getElem?_set_self (List.getElem?_eq_some_iff.mp hp).1]
        · show Sound height m.name _ _ (c.fleet.step j _).2
          rw [Crew.step_self hm hp]
          exact hsound.step hstore
      · exact ⟨p, (Crew.step_positions hj _).trans hp,
          hsound.alike (Crew.step_alike hstore (name_ne hnames hm hj) _)⟩

/-- The checkpoints of other names stay where they were. -/
theorem after_stranger (hname : ∀ m ∈ c.members, m.name ≠ name) (moves : List Move) :
    height (c.after moves).2.points name = height c.points name := by
  induction moves using List.reverseRecOn with
  | nil => rfl
  | append_singleton moves next ih =>
    rw [Crew.after_concat, ← ih]
    cases next with
    | cancel => rfl
    | turn j => exact (Crew.step_alike hstore (fun m hm => hname m (List.mem_of_getElem? hm)) _).height.symm

end Effects

/-! ## Before a cancellation -/

/-- The turns that a member has before the first cancellation. -/
def turnsOf (i : Nat) (moves : List Move) : Nat := (moves.takeWhile (· ≠ .cancel)).count (.turn i)

theorem takeWhile_mine (i : Nat) (moves : List Move) :
    (mine i moves).takeWhile (· ≠ .cancel) = List.replicate (turnsOf i moves) (.turn 0) := by
  induction moves with
  | nil => rfl
  | cons next rest ih =>
    cases next with
    | cancel => rfl
    | turn j =>
      have hkeep : turnsOf i (.turn j :: rest) = List.count (Move.turn i) (.turn j :: rest.takeWhile (· ≠ .cancel)) := by
        rw [turnsOf, List.takeWhile_cons_of_pos (by simp)]
      by_cases hj : j = i
      · subst hj
        rw [show mine j (.turn j :: rest) = .turn 0 :: mine j rest by simp [mine],
          List.takeWhile_cons_of_pos (by simp), ih, hkeep, List.count_cons_self, List.replicate_succ]
        rfl
      · rw [show mine i (.turn j :: rest) = mine i rest by simp [mine, hj], ih, hkeep,
          List.count_cons_of_ne (by simpa using hj)]
        rfl

/-- What comes after the first cancellation leaves the scene as it is. -/
theorem after_takeWhile (c : Crew κ τ) (moves : List Move) :
    ∃ flag, (c.after moves).2 = { (c.after (moves.takeWhile (· ≠ .cancel))).2 with cancelled := flag } := by
  have hsplit := List.takeWhile_append_dropWhile (p := (· ≠ Move.cancel)) (l := moves)
  rcases hdrop : moves.dropWhile (· ≠ .cancel) with _ | ⟨next, rest⟩
  · rw [hdrop, List.append_nil] at hsplit
    rw [hsplit]
    exact ⟨_, rfl⟩
  · have hnext : next = .cancel := by
      have hne : moves.dropWhile (· ≠ .cancel) ≠ [] := by
        rw [hdrop]
        exact List.cons_ne_nil _ _
      have hhead := List.head_dropWhile_not (· ≠ Move.cancel) hne
      simp only [hdrop, List.head_cons, decide_eq_false_iff_not, not_not] at hhead
      exact hhead
    subst hnext
    refine ⟨true, ?_⟩
    conv_lhs => rw [← hsplit, hdrop]
    exact after_cancel c _ rest

/-! ## Indexers that do not disturb each other -/

/-- What a run leaves of the indexer of a name: the ranges it was asked for, those it committed, and its checkpoint. -/
def Scene.seen (height : κ → String → Option Nat) (s : Scene κ τ) (name : String) :
    List (Nat × Nat) × List (Nat × Nat) × Option Nat :=
  (s.asked name, s.committed name, height s.points name)

/-- **Indexers over one store do not disturb each other.** For any members with different names, any turns and any moment
of a cancellation:

* what is left of a member is what it would leave alone, in the turns that it had before the cancellation, and the ranges
  it was asked for are a first part of those it would be asked for alone;
* it is the same whatever the other members are, and whether they work, fail or are lost;
* after a cancellation nothing more is asked for, and a loop that takes two turns has ended;
* a checkpoint is where it was, or at the end of a range that its own indexer was asked for and committed. -/
theorem indexers_apart (hstore : c.store.Faithful height) (hnames : (c.members.map Member.name).Nodup)
    (moves : List Move) :
    (∀ i m, c.members[i]? = some m →
      ((c.after moves).2.seen height m.name =
          ((c.alone m).after (List.replicate (turnsOf i moves) (.turn 0))).2.seen height m.name ∧
        ∀ more, (c.after moves).2.asked m.name <+:
          ((c.alone m).after (List.replicate (turnsOf i moves + more) (.turn 0))).2.asked m.name) ∧
      ∀ others i' moves', others[i']? = some m → (others.map Member.name).Nodup → mine i' moves' = mine i moves →
        (({ c with members := others } : Crew κ τ).after moves').2.seen height m.name =
          (c.after moves).2.seen height m.name) ∧
    (∀ before rest, moves = before ++ .cancel :: rest →
      (∀ name, (c.after moves).2.asked name = (c.after before).2.asked name) ∧
      ∀ i p, 2 ≤ rest.count (.turn i) → (c.after moves).1[i]? = some p → p.isFinal = true) ∧
    ∀ name, height (c.after moves).2.points name = height c.points name ∨
      ∃ r ∈ (c.after moves).2.committed name, r ∈ (c.after moves).2.asked name ∧
        height (c.after moves).2.points name = some r.2 := by
  refine ⟨fun i m hm => ?_, ?_, fun name => ?_⟩
  · -- what is left of a member in its crew is what its own moves leave of it
    have hseen : (c.after moves).2.seen height m.name = ((c.alone m).after (mine i moves)).2.seen height m.name := by
      obtain ⟨-, halike⟩ := alone_follows hstore hnames hm moves
      simp only [Scene.seen, halike.asked, halike.committed, halike.height]
    have halone : (c.after moves).2.seen height m.name =
        ((c.alone m).after (List.replicate (turnsOf i moves) (.turn 0))).2.seen height m.name := by
      obtain ⟨flag, hflag⟩ := after_takeWhile (c.alone m) (mine i moves)
      rw [hseen, hflag, takeWhile_mine]
      rfl
    refine ⟨⟨halone, fun more => ?_⟩, fun others i' moves' hm' hnames' hmoves => ?_⟩
    · rw [show (c.after moves).2.asked m.name = _ from congrArg Prod.fst halone, List.replicate_add]
      exact Crew.after_asked (c := c.alone m) hstore _ _ _
    · obtain ⟨-, halike⟩ :=
        alone_follows (c := { c with members := others }) hstore hnames' hm' moves'
      rw [hseen, ← hmoves]
      show _ = (({ c with members := others } : Crew κ τ).alone m |>.after (mine i' moves')).2.seen height m.name
      simp only [Scene.seen, halike.asked, halike.committed, halike.height]
  · rintro before rest rfl
    refine ⟨fun name => by rw [after_cancel], fun i p hturns hp => ?_⟩
    have hlt : i < c.members.length := by
      rw [← c.after_length (before ++ .cancel :: rest)]
      exact (List.getElem?_eq_some_iff.mp hp).1
    obtain ⟨q, hq, hleft⟩ := settles (List.getElem?_eq_getElem hlt) before rest
    obtain rfl : q = p := Option.some.inj (hq.symm.trans hp)
    exact Position.isFinal_of_left (by omega)
  · by_cases hname : ∃ m ∈ c.members, m.name = name
    · obtain ⟨m, hmem, rfl⟩ := hname
      obtain ⟨i, hm⟩ := List.mem_iff_getElem?.mp hmem
      obtain ⟨p, -, hsound⟩ := Sound.after hstore hnames hm moves
      exact hsound.reached.imp id fun ⟨r, hr, hheight⟩ => ⟨r, hr, hsound.listed r hr, hheight⟩
    · exact .inl (after_stranger hstore (fun m hm h => hname ⟨m, hm, h⟩) moves)

/-! ### Two indexers, one of them lost -/

/-- One indexer commits every range, and the task of the other is lost after its first one. -/
def sampleCrew : Crew (List Checkpoint) Unit where
  store := Checkpoint.memory
  schedule := { lag := 1, batch := 2 }
  points := [⟨"blocks", 0⟩, ⟨"votes", 2⟩]
  own _ := ()
  members := [
    ⟨"blocks", none, pure 9, fun _ _ _ => (.committed, ())⟩,
    ⟨"votes", none, pure 9, fun _ _ _ => (.lost true, ())⟩]

/-- The second is lost before the first has committed anything, and the cancellation comes when the first is at work. -/
def sampleMoves : List Move := [
  .turn 0, .turn 1, .turn 1, .turn 0, .turn 1, .turn 0, .cancel, .turn 0, .turn 1, .turn 0]

/-- What the first indexer was asked for is what it would be asked for alone, and both loops have ended. -/
theorem sampleCrew_apart :
    (sampleCrew.after sampleMoves).2.asked "blocks" = [(1, 2), (3, 4)] ∧
    (∀ more, [(1, 2), (3, 4)] <+:
      ((sampleCrew.alone ⟨"blocks", none, pure 9, fun _ _ _ => (.committed, ())⟩).after
        (List.replicate (3 + more) (.turn 0))).2.asked "blocks") ∧
    Checkpoint.heightIn (sampleCrew.after sampleMoves).2.points "votes" = some 4 ∧
    (sampleCrew.after sampleMoves).1 = [.stopped, .lost] := by
  have hasked : (sampleCrew.after sampleMoves).2.asked "blocks" = [(1, 2), (3, 4)] := by cbv
  obtain ⟨hmembers, -, -⟩ := indexers_apart (c := sampleCrew) Checkpoint.memory_faithful (by decide) sampleMoves
  obtain ⟨⟨-, hprefix⟩, -⟩ := hmembers 0 _ rfl
  refine ⟨hasked, fun more => ?_, by cbv, by cbv⟩
  rw [← hasked]
  exact hprefix more

end StakeTrail.Indexing
