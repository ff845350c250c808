import Mathlib
import StakeTrail.Proofs.Stake.Persisted
import StakeTrail.Proofs.Text.Decimal

/-!
# Changes are summed exactly or refused

Events and stored changes are added one after the other, and the first to which there is an objection ends it
(`Action.firstObjection`): an amount that is no numeral, a sum that is no word, a stored change without its block time,
and the least word where it is taken off, for it has no opposite (`eventObjection?`, `changeObjection?`). Without an
objection every entry is the exact sum of what was added at its height (`Summed`, `Gathered`).

**The main statement** (`changes_exact_or_refused`) says so for both. All objections but one are refusals of data;
taking the least word off breaks the task.
-/

namespace StakeTrail.Action

variable {σ α : Type} {objection : List α → α → Option Fault} {done rest : List α}

/-- The first objection to the members of a list, each looked at after those before it. -/
def firstObjection (objection : List α → α → Option Fault) : List α → List α → Option Fault
  | _, [] => none
  | done, a :: rest =>
    match objection done a with
    | some e => some e
    | none => firstObjection objection (done ++ [a]) rest

theorem firstObjection_eq_some {e : Fault} : ∀ {rest done : List α}, firstObjection objection done rest = some e →
    ∃ front a back, rest = front ++ a :: back ∧ objection (done ++ front) a = some e
  | [], _, h => by cases h
  | a :: rest, done, h => by
    rw [firstObjection] at h
    rcases ha : objection done a with _ | e' <;> rw [ha] at h
    · obtain ⟨front, b, back, rfl, hb⟩ := firstObjection_eq_some h
      exact ⟨a :: front, b, back, rfl, by simpa using hb⟩
    · cases h
      exact ⟨[], a, rest, rfl, by simpa using ha⟩

theorem firstObjection_eq_none : ∀ {rest done : List α}, firstObjection objection done rest = none →
    ∀ a ∈ rest, ∃ before, objection before a = none
  | [], _, _, a, ha => by cases ha
  | b :: rest, done, h, a, ha => by
    rw [firstObjection] at h
    rcases hb : objection done b with _ | e <;> rw [hb] at h
    · rcases List.mem_cons.mp ha with rfl | ha
      · exact ⟨done, hb⟩
      · exact firstObjection_eq_none h a ha
    · cases h

/-- How an action ends to which there is an objection, or none. -/
def verdict : Option Fault → Except Fault Unit
  | none => .ok ()
  | some e => .error e

theorem verdict_eq_ok {objection? : Option Fault} : verdict objection? = .ok () ↔ objection? = none := by
  cases objection? <;> simp [verdict]

theorem verdict_eq_error {objection? : Option Fault} {e : Fault} :
    verdict objection? = .error e ↔ objection? = some e := by
  cases objection? <;> simp [verdict]

/-- **An action for each member of a list** ends with the first objection, or does what it does for all of them. -/
theorem each_verdict {f : α → Action σ Unit} {I : List α → σ → Prop}
    (step : ∀ done a s, I done s →
      (∃ e, objection done a = some e ∧ (f a s).1 = .error e) ∨
      objection done a = none ∧ ∃ s', f a s = (.ok (), s') ∧ I (done ++ [a]) s') :
    ∀ (rest done : List α) {s : σ}, I done s →
      (each f rest s).1 = verdict (firstObjection objection done rest) ∧
      ∀ s', each f rest s = (.ok (), s') → I (done ++ rest) s' := by
  intro rest
  induction rest with
  | nil =>
    intro done s hs
    refine ⟨rfl, fun s' h => ?_⟩
    cases h
    simpa using hs
  | cons a rest ih =>
    intro done s hs
    rw [firstObjection, each, bind_apply]
    rcases step done a s hs with ⟨e, he, hrun⟩ | ⟨hnone, s', hrun, hs'⟩
    · rw [he]
      rcases hx : f a s with ⟨e' | ⟨⟩, s'⟩ <;> rw [hx] at hrun
      · refine ⟨hrun, fun _ h => ?_⟩
        cases h
      · cases hrun
    · rw [hnone, hrun]
      simpa using ih (done ++ [a]) hs'

end StakeTrail.Action

namespace StakeTrail.Stake

open StakeTrail.Action

variable {deltas s : Deltas} {h : Nat} {d : Int}

/-! ## Words -/

/-- The change of a height. -/
def Deltas.at? (deltas : Deltas) (h : Nat) : Option Int := (Keyed.get? Prod.fst h deltas).map (·.2)

/-- **Deltas as they are kept**: one entry a height, in ascending order, and each a word. -/
structure Sound (deltas : Deltas) : Prop where
  ascends : Ascends deltas
  words : ∀ p ∈ deltas, Word.fits p.2 = true

/-- An amount that is read is a word. -/
theorem readAmount_fits {raw : String} {n : Int} (hr : readAmount raw = .ok n) : Word.fits n = true := by
  unfold readAmount at hr
  split at hr
  · cases hr
    decide
  · split at hr
    · rename_i i hi
      cases hr
      have hb := Text.Numeral.integer_bounds hi
      unfold Word.least Word.greatest at hb
      exact decide_eq_true ⟨by unfold Word.least; omega, by unfold Word.greatest; omega⟩
    · cases hr

/-- **Every word but the least has an opposite.** -/
theorem negated_eq {n : Int} (hn : Word.fits n = true) :
    negated n = if n = Word.least then .error .crash else .ok (-n) := by
  have hb := of_decide_eq_true hn
  unfold negated
  have hfits : Word.fits (-n) = true ↔ n ≠ Word.least := by
    unfold Word.fits Word.least Word.greatest at *
    rw [decide_eq_true_eq]
    omega
  by_cases heq : n = Word.least
  · rw [if_pos heq, if_neg (hfits.not.mpr (not_not.mpr heq))]
  · rw [if_neg heq, if_pos (hfits.mpr heq)]

/-- Only a sum that is no word is refused; the change alone always is one. -/
theorem plus_cases (hd : Word.fits d = true) : ∀ {deltas : Deltas}, Ascends deltas →
    (Word.fits ((deltas.at? h).getD 0 + d) = true ∧ ∃ next, Deltas.plus h d deltas = .ok next) ∨
    Word.fits ((deltas.at? h).getD 0 + d) = false ∧ Deltas.plus h d deltas = .error (.decode (.deltaOverflow h))
  | [], _ => .inl ⟨by simpa [Deltas.at?, Keyed.get?] using hd, _, rfl⟩
  | (k, x) :: rest, hs => by
    obtain ⟨hk, hrest⟩ := List.pairwise_cons.mp hs
    rw [Deltas.plus]
    by_cases hlt : h < k
    · -- the list ascends, so a height below its head has no entry
      have hnone : Deltas.at? ((k, x) :: rest) h = none := by
        refine Option.map_eq_none_iff.mpr (Keyed.get?_eq_none.mpr fun p hp => Nat.ne_of_gt ?_)
        rcases List.mem_cons.mp hp with rfl | hp
        · exact hlt
        · exact hlt.trans (hk p hp)
      rw [hnone, if_pos hlt]
      exact .inl ⟨by simpa using hd, _, rfl⟩
    · rw [if_neg hlt]
      by_cases heq : h = k
      · subst heq
        have hsome : Deltas.at? ((h, x) :: rest) h = some x := by simp [Deltas.at?, Keyed.get?]
        rw [hsome, if_pos rfl, Word.add?, Option.getD_some]
        by_cases hfits : Word.fits (x + d) = true
        · exact .inl ⟨hfits, (h, x + d) :: rest, by simp [hfits]⟩
        · exact .inr ⟨by simpa using hfits, by simp [hfits]⟩
      · have hsame : Deltas.at? ((k, x) :: rest) h = Deltas.at? rest h := by
          simp [Deltas.at?, Keyed.get?, Ne.symm heq]
        rw [hsame, if_neg heq]
        rcases plus_cases hd hrest with ⟨hfits, next, hp⟩ | ⟨hfits, hp⟩ <;> rw [hp]
        · exact .inl ⟨hfits, _, rfl⟩
        · exact .inr ⟨hfits, rfl⟩

/-- **One more change** is added exactly, or refused because the sum is no word. -/
theorem plus_outcome (hs : Sound deltas) (hd : Word.fits d = true) (h : Nat) :
    (Word.fits ((deltas.at? h).getD 0 + d) = true ∧ ∃ next, Deltas.plus h d deltas = .ok next ∧ Sound next ∧
      ∀ k, next.at? k = if k = h then some ((deltas.at? h).getD 0 + d) else deltas.at? k) ∨
    Word.fits ((deltas.at? h).getD 0 + d) = false ∧ Deltas.plus h d deltas = .error (.decode (.deltaOverflow h)) := by
  refine (plus_cases hd hs.ascends).imp_left fun ⟨hfits, next, hp⟩ => ⟨hfits, next, hp, ?_⟩
  obtain ⟨hascends, hget⟩ := plus_get? hs.ascends hp
  refine ⟨⟨hascends, fun p hmem => ?_⟩, fun k => ?_⟩
  · have hfound := (Keyed.get?_iff hascends.nodup).mpr ⟨hmem, rfl⟩
    rw [hget] at hfound
    split at hfound
    · cases hfound
      exact hfits
    · exact hs.words p (Keyed.mem_of_get? hfound)
  · unfold Deltas.at?
    rw [hget]
    split <;> rfl

/-! ## What stands against an amount -/

/-- What stands against an amount that is put on or taken off: it cannot be read, or it is the least word, which has no
opposite to take off. -/
def flaw? (off : Bool) (raw : String) : Option Fault :=
  match readAmount raw with
  | .error f => some f
  | .ok n => if off = true ∧ n = Word.least then some .crash else none

/-- What stands against a sum. -/
def overflow? (h : Nat) (sum : Int) : Option Fault :=
  if Word.fits sum then none else some (.decode (.deltaOverflow h))

/-- What stands against one more event of a height. -/
def eventObjection? (h : Nat) (start : Int) (done : List EventRecord) (e : EventRecord) : Option Fault :=
  if carries e then
    (flaw? (e.kind == "undelegate_success") (amountText e)).or (overflow? h (start + netOf (done ++ [e])))
  else none

/-- What stands against one more stored change. Its amount is read whatever its kind. -/
def changeObjection? (done : List Change) (c : Change) : Option Fault :=
  (flaw? (c.kind == .unstake) c.amount).or <|
    if c.signed? = none then none
    else if c.time = none then some (.missingBlockTime c.block)
    else overflow? c.block ((dueAt (done ++ [c]) c.block).getD 0)

theorem readAmount_cases (raw : String) :
    (∃ why, readAmount raw = .error (.decode why)) ∨
    ∃ n, readAmount raw = .ok n ∧ worth raw = n ∧ Word.fits n = true := by
  rcases hr : readAmount raw with f | n
  · refine .inl ?_
    unfold readAmount at hr
    split at hr
    · cases hr
    · split at hr <;> cases hr
      exact ⟨_, rfl⟩
  · exact .inr ⟨n, rfl, by rw [worth, hr]; rfl, readAmount_fits hr⟩

/-- An amount that nothing stands against is a word, and so is its opposite when it is taken off. -/
theorem flaw?_cases (off : Bool) (raw : String) :
    (∃ f, flaw? off raw = some f ∧
      ((∃ why, f = .decode why ∧ readAmount raw = .error f) ∨
        f = .crash ∧ off = true ∧ readAmount raw = .ok Word.least)) ∨
    flaw? off raw = none ∧ ∃ n, readAmount raw = .ok n ∧ worth raw = n ∧ Word.fits n = true ∧
      (off = true → negated n = .ok (-n) ∧ Word.fits (-n) = true) := by
  unfold flaw?
  rcases readAmount_cases raw with ⟨why, hr⟩ | ⟨n, hr, hworth, hfits⟩ <;> simp only [hr]
  · exact .inl ⟨_, rfl, .inl ⟨why, rfl, rfl⟩⟩
  · by_cases hleast : off = true ∧ n = Word.least
    · exact .inl ⟨.crash, if_pos hleast, .inr ⟨rfl, hleast.1, by rw [hleast.2]⟩⟩
    · refine .inr ⟨if_neg hleast, n, rfl, hworth, hfits, fun hoff => ?_⟩
      have hn : negated n = .ok (-n) := by
        rw [negated_eq hfits, if_neg fun h => hleast ⟨hoff, h⟩]
      refine ⟨hn, ?_⟩
      unfold negated at hn
      split at hn
      · assumption
      · cases hn

/-! ## Events -/

/-- **Exactly the events of a height** were added: what they are worth, if any of them counts, and nowhere else. -/
structure Summed (deltas : Deltas) (h : Nat) (events : List EventRecord) (next : Deltas) : Prop where
  sound : Sound next
  readable : ∀ e ∈ events, Readable e
  at_eq : ∀ k, next.at? k =
    if k = h ∧ events.any carries = true then some ((deltas.at? h).getD 0 + netOf events) else deltas.at? k

theorem Summed.nil (hs : Sound deltas) (h : Nat) : Summed deltas h [] deltas := ⟨hs, by simp, by simp⟩

/-- What is there after some events of a height. -/
theorem Summed.getD {events : List EventRecord} {next : Deltas} (hs : Summed deltas h events next) :
    (next.at? h).getD 0 = (deltas.at? h).getD 0 + netOf events := by
  rw [hs.at_eq]
  by_cases hany : events.any carries = true
  · simp [hany]
  · simp [hany, netOf_of_not_carries (Bool.eq_false_iff.mpr hany)]

/-- Adds the change of one event. -/
def addEvent (h : Nat) (e : EventRecord) : Action Deltas Unit := do
  match ← ofExcept (eventDelta e) with
  | some delta => Deltas.add h delta
  | none => pure ()

/-- An event that counts is read as what it is worth, unless something stands against its amount. -/
theorem eventDelta_outcome {e : EventRecord} (hc : carries e = true) :
    (∃ f, flaw? (e.kind == "undelegate_success") (amountText e) = some f ∧ eventDelta e = .error f) ∨
    flaw? (e.kind == "undelegate_success") (amountText e) = none ∧ eventDelta e = .ok (some (net e)) ∧
      Word.fits (net e) = true := by
  rw [eventDelta_apply, if_pos hc]
  have hkind : e.kind = "delegate_success" ∨ e.kind = "undelegate_success" := by
    simpa using (Bool.and_eq_true_iff.mp hc).1
  have hne : "undelegate_success" ≠ "delegate_success" := by decide
  rcases flaw?_cases (e.kind == "undelegate_success") (amountText e) with
    ⟨f, hf, ⟨why, rfl, hr⟩ | ⟨rfl, hoff, hr⟩⟩ | ⟨hf, n, hr, hworth, hfits, hoff⟩ <;> rw [hr]
  · exact .inl ⟨_, hf, rfl⟩
  · -- the least word is taken off
    have hkind := beq_iff_eq.mp hoff
    refine .inl ⟨_, hf, ?_⟩
    simp only [Except.bind, hkind, if_neg hne]
    rw [negated_eq (by decide), if_pos rfl]
    rfl
  · refine .inr ⟨hf, ?_⟩
    unfold net
    rcases hkind with hkind | hkind
    · simp only [Except.bind, hkind, if_true, hworth]
      exact ⟨trivial, hfits⟩
    · obtain ⟨hneg, hfits'⟩ := hoff (beq_iff_eq.mpr hkind)
      simp only [Except.bind, hkind, if_neg hne, if_true, hworth, hneg]
      exact ⟨rfl, hfits'⟩

/-- **One more event.** -/
theorem addEvent_outcome (deltas : Deltas) (h : Nat) (done : List EventRecord) (e : EventRecord) (s : Deltas)
    (hs : Summed deltas h done s) :
    (∃ f, eventObjection? h ((deltas.at? h).getD 0) done e = some f ∧ (addEvent h e s).1 = .error f) ∨
    eventObjection? h ((deltas.at? h).getD 0) done e = none ∧
      ∃ s', addEvent h e s = (.ok (), s') ∧ Summed deltas h (done ++ [e]) s' := by
  have hreadable : Readable e → ∀ e' ∈ done ++ [e], Readable e' := fun he => by
    simpa [or_imp, forall_and] using ⟨hs.readable, he⟩
  simp only [eventObjection?, addEvent, bind_apply, ofExcept_apply]
  by_cases hc : carries e = true
  · rw [if_pos hc]
    rcases eventDelta_outcome hc with ⟨f, hf, hd⟩ | ⟨hf, hd, hfits⟩ <;> rw [hf, hd]
    · exact .inl ⟨f, rfl, rfl⟩
    · have hsum : (deltas.at? h).getD 0 + netOf (done ++ [e]) = (s.at? h).getD 0 + net e := by
        rw [hs.getD, netOf_concat, add_assoc]
      simp only [Option.none_or, overflow?, Deltas.add]
      rw [hsum]
      rcases plus_outcome hs.sound hfits h with ⟨hin, next, hp, hsound, hat⟩ | ⟨hout, hp⟩ <;> rw [hp]
      · refine .inr ⟨by rw [if_pos hin], next, rfl, hsound, hreadable (eventDelta_eq hd).2, fun k => ?_⟩
        by_cases hk : k = h
        · rw [hat, hsum, if_pos hk, if_pos ⟨hk, by simp [hc]⟩]
        · simp [hat, hs.at_eq, hk]
      · exact .inl ⟨_, by rw [hout]; rfl, rfl⟩
  · -- an event that does not count is passed over, whatever its amount
    rw [if_neg hc, eventDelta_apply, if_neg hc]
    refine .inr ⟨rfl, s, rfl, hs.sound, hreadable fun h => absurd h hc, fun k => ?_⟩
    rw [hs.at_eq, netOf_concat, net_of_not_carries (Bool.eq_false_iff.mpr hc)]
    simp [hc]

/-! ## Stored changes -/

/-- **Exactly the changes were gathered**, into words. -/
structure Gathered (changes : List Change) (s : Deltas × Times) : Prop extends Collected changes s where
  words : ∀ p ∈ s.1, Word.fits p.2 = true

theorem Gathered.nil : Gathered [] ([], []) := ⟨⟨.nil, fun _ => rfl, by simp, by simp⟩, by simp⟩

/-- A change that counts needs the time of its block, and a sum that is a word. -/
theorem addWorth_outcome {done : List Change} {c : Change} {s : Deltas × Times} (hs : Gathered done s)
    (hn : ∃ n, readAmount c.amount = .ok n) (hc : c.signed? = some d) (hd : Word.fits d = true) :
    (∃ f, (if c.time = none then some (.missingBlockTime c.block)
        else overflow? c.block ((dueAt (done ++ [c]) c.block).getD 0)) = some f ∧ (addWorth c d s).1 = .error f) ∨
    (if c.time = none then some (.missingBlockTime c.block)
        else overflow? c.block ((dueAt (done ++ [c]) c.block).getD 0)) = none ∧
      ∃ s', addWorth c d s = (.ok (), s') ∧ Gathered (done ++ [c]) s' := by
  unfold addWorth
  rcases ht : c.time with _ | time
  · exact .inl ⟨_, rfl, rfl⟩
  · have hsum : (dueAt (done ++ [c]) c.block).getD 0 = (s.1.at? c.block).getD 0 + d := by
      rw [dueAt_concat, hc, Deltas.at?, hs.due]
      rcases dueAt done c.block with _ | x <;> simp
    simp only [overflow?, bind_apply, within, Deltas.add]
    rw [hsum]
    rcases plus_outcome ⟨hs.ascends, hs.words⟩ hd c.block with ⟨hin, next, hp, hsound, -⟩ | ⟨hout, hp⟩ <;> rw [hp]
    · exact .inr ⟨by simp [hin], _, rfl, hs.toCollected.add hn hc ht hp, hsound.words⟩
    · exact .inl ⟨_, by simp [hout], rfl⟩

/-- **One more stored change.** -/
theorem addChange_outcome (done : List Change) (c : Change) (s : Deltas × Times) (hs : Gathered done s) :
    (∃ f, changeObjection? done c = some f ∧ (addChange c s).1 = .error f) ∨
    changeObjection? done c = none ∧ ∃ s', addChange c s = (.ok (), s') ∧ Gathered (done ++ [c]) s' := by
  simp only [addChange_eq, changeObjection?, bind_apply, ofExcept_apply]
  rcases flaw?_cases (c.kind == .unstake) c.amount with
    ⟨f, hf, ⟨why, rfl, hr⟩ | ⟨rfl, hoff, hr⟩⟩ | ⟨hf, n, hr, hworth, hfits, hoff⟩ <;> rw [hf, hr]
  · exact .inl ⟨_, rfl, rfl⟩
  · refine .inl ⟨_, rfl, ?_⟩
    simp only [beq_iff_eq.mp hoff, bind_apply, ofExcept_apply, negated_eq (show Word.fits Word.least = true by decide),
      if_true]
  · have hskip : c.signed? = none →
        ∃ s', (pure () : Action (Deltas × Times) Unit) s = (.ok (), s') ∧ Gathered (done ++ [c]) s' :=
      fun hno => ⟨s, rfl, hs.toCollected.skip ⟨n, hr⟩ hno, hs.words⟩
    rw [Option.none_or]
    rcases hk : c.kind
    case stake =>
      have hsigned : c.signed? = some n := by simp [Change.signed?, hk, hworth]
      simpa [hsigned] using addWorth_outcome hs ⟨n, hr⟩ hsigned hfits
    case unstake =>
      obtain ⟨hneg, hfits'⟩ := hoff (by rw [hk]; rfl)
      have hsigned : c.signed? = some (-n) := by simp [Change.signed?, hk, hworth]
      simpa [bind_apply, ofExcept_apply, hsigned, hneg] using addWorth_outcome hs ⟨n, hr⟩ hsigned hfits'
    all_goals
      have hnone : c.signed? = none := by simp [Change.signed?, hk]
      exact .inr ⟨if_pos hnone, hskip hnone⟩

/-! ## What objections there are -/

/-- **The one amount that is read but cannot be taken off** is the least word. -/
def TakesLeast (off : Bool) (raw : String) : Prop := off = true ∧ readAmount raw = .ok Word.least

theorem flaw?_cause {off : Bool} {raw : String} {f : Fault} (hf : flaw? off raw = some f) :
    (∃ why, f = .decode why) ∨ f = .crash ∧ TakesLeast off raw := by
  rcases flaw?_cases off raw with ⟨f', hf', ⟨why, rfl, -⟩ | ⟨rfl, hoff, hr⟩⟩ | ⟨hnone, -⟩
  · exact .inl ⟨why, Option.some.inj (hf.symm.trans hf')⟩
  · exact .inr ⟨Option.some.inj (hf.symm.trans hf'), hoff, hr⟩
  · rw [hnone] at hf
    cases hf

theorem TakesLeast.flaw?_eq {off : Bool} {raw : String} (h : TakesLeast off raw) : flaw? off raw = some .crash := by
  simp [flaw?, h.2, h.1]

theorem overflow?_cause {sum : Int} {f : Fault} (hf : overflow? h sum = some f) : ∃ why, f = .decode why := by
  unfold overflow? at hf
  split at hf <;> cases hf
  exact ⟨_, rfl⟩

theorem eventObjection?_cause {start : Int} {done : List EventRecord} {e : EventRecord} {f : Fault}
    (hf : eventObjection? h start done e = some f) :
    (∃ why, f = .decode why) ∨ f = .crash ∧ TakesLeast (e.kind == "undelegate_success") (amountText e) := by
  unfold eventObjection? at hf
  split at hf
  · rcases Option.or_eq_some_iff.mp hf with hflaw | ⟨-, hover⟩
    · exact flaw?_cause hflaw
    · exact .inl (overflow?_cause hover)
  · cases hf

theorem TakesLeast.eventObjection?_eq {e : EventRecord}
    (he : TakesLeast (e.kind == "undelegate_success") (amountText e)) (start : Int) (done : List EventRecord) :
    eventObjection? h start done e = some .crash := by
  have hc : carries e = true := by
    have hne : (amountText e).isEmpty = false := by
      by_contra hempty
      have hread := he.2
      rw [readAmount, if_pos (by simpa using hempty)] at hread
      cases hread
    simp [carries, beq_iff_eq.mp he.1, hne]
  rw [eventObjection?, if_pos hc, he.flaw?_eq, Option.some_or]

theorem changeObjection?_cause {done : List Change} {c : Change} {f : Fault} (hf : changeObjection? done c = some f) :
    (∃ why, f = .decode why) ∨ (f = .missingBlockTime c.block ∧ c.signed? ≠ none ∧ c.time = none) ∨
      f = .crash ∧ TakesLeast (c.kind == .unstake) c.amount := by
  rcases Option.or_eq_some_iff.mp hf with hflaw | ⟨-, hrest⟩
  · exact (flaw?_cause hflaw).imp_right .inr
  · split at hrest
    · cases hrest
    · rename_i hsigned
      split at hrest
      · rename_i htime
        exact .inr (.inl ⟨(Option.some.inj hrest).symm, hsigned, htime⟩)
      · exact .inl (overflow?_cause hrest)

theorem TakesLeast.changeObjection?_eq {c : Change} (hc : TakesLeast (c.kind == .unstake) c.amount)
    (done : List Change) : changeObjection? done c = some .crash := by
  rw [changeObjection?, hc.flaw?_eq, Option.some_or]

/-! ## The whole -/

/-- **Events of a height**, added to deltas. -/
theorem addEvents_verdict (hs : Sound deltas) (h : Nat) (events : List EventRecord) :
    (Deltas.addEvents h events deltas).1 =
      verdict (firstObjection (eventObjection? h ((deltas.at? h).getD 0)) [] events) ∧
    ∀ next, Deltas.addEvents h events deltas = (.ok (), next) → Summed deltas h events next :=
  each_verdict (addEvent_outcome deltas h) events [] (Summed.nil hs h)

/-- **Stored changes**, collected. -/
theorem ofChanges_verdict (changes : List Change) :
    (Deltas.ofChanges changes).map (fun _ => ()) = verdict (firstObjection changeObjection? [] changes) ∧
    ∀ s, Deltas.ofChanges changes = .ok s → Gathered changes s := by
  have h := each_verdict addChange_outcome changes [] Gathered.nil
  unfold Deltas.ofChanges
  rcases hrun : each addChange changes ([], []) with ⟨e | ⟨⟩, s⟩ <;> rw [hrun] at h
  · exact ⟨h.1, fun _ hok => nomatch hok⟩
  · refine ⟨h.1, fun _ hok => ?_⟩
    cases hok
    exact h.2 _ rfl

/-- **Stake changes are summed exactly or refused**, whatever the heights, the texts and the order.

Adding the events of a height to deltas ends with the first objection to an event, and without one adds what they are
worth to the entry of that height. Collecting stored changes ends with the first objection to a change, and without one
holds for each height what is due there. Deltas stay in ascending order and every entry a word.

An objection is a refusal of data, or, for a stored change that counts, its missing block time. There is one exception:
the least word is read but has no opposite. Where it is taken off nothing is ever summed, and unless data before it are
refused the task breaks. -/
theorem changes_exact_or_refused (hs : Sound deltas) (h : Nat) (events : List EventRecord) (changes : List Change) :
    ((Deltas.addEvents h events deltas).1 =
        verdict (firstObjection (eventObjection? h ((deltas.at? h).getD 0)) [] events) ∧
      (∀ next, Deltas.addEvents h events deltas = (.ok (), next) → Summed deltas h events next) ∧
      (∀ f, (Deltas.addEvents h events deltas).1 = .error f → (∃ why, f = .decode why) ∨
        f = .crash ∧ ∃ e ∈ events, TakesLeast (e.kind == "undelegate_success") (amountText e)) ∧
      ((∃ e ∈ events, TakesLeast (e.kind == "undelegate_success") (amountText e)) →
        (Deltas.addEvents h events deltas).1 ≠ .ok ())) ∧
    (Deltas.ofChanges changes).map (fun _ => ()) = verdict (firstObjection changeObjection? [] changes) ∧
    (∀ s, Deltas.ofChanges changes = .ok s → Gathered changes s) ∧
    (∀ f, Deltas.ofChanges changes = .error f → (∃ why, f = .decode why) ∨
      (∃ c ∈ changes, f = .missingBlockTime c.block ∧ c.signed? ≠ none ∧ c.time = none) ∨
      f = .crash ∧ ∃ c ∈ changes, TakesLeast (c.kind == .unstake) c.amount) ∧
    ((∃ c ∈ changes, TakesLeast (c.kind == .unstake) c.amount) → ∀ s, Deltas.ofChanges changes ≠ .ok s) := by
  constructor
  · obtain ⟨hverdict, hsummed⟩ := addEvents_verdict hs h events
    refine ⟨hverdict, hsummed, fun f hf => ?_, fun ⟨e, he, hleast⟩ hok => ?_⟩
    · obtain ⟨front, e, back, rfl, he⟩ := firstObjection_eq_some (verdict_eq_error.mp (hverdict.symm.trans hf))
      exact (eventObjection?_cause he).imp_right fun ⟨hcrash, hleast⟩ => ⟨hcrash, e, by simp, hleast⟩
    · obtain ⟨before, hnone⟩ := firstObjection_eq_none (verdict_eq_ok.mp (hverdict.symm.trans hok)) e he
      rw [hleast.eventObjection?_eq] at hnone
      cases hnone
  · obtain ⟨hverdict, hgathered⟩ := ofChanges_verdict changes
    refine ⟨hverdict, hgathered, fun f hf => ?_, fun ⟨c, hc, hleast⟩ s hok => ?_⟩
    · rw [hf] at hverdict
      obtain ⟨front, c, back, rfl, hc⟩ := firstObjection_eq_some (verdict_eq_error.mp hverdict.symm)
      refine (changeObjection?_cause hc).imp_right (Or.imp ?_ ?_)
      · exact fun hmissing => ⟨c, by simp, hmissing⟩
      · exact fun ⟨hcrash, hleast⟩ => ⟨hcrash, c, by simp, hleast⟩
    · rw [hok] at hverdict
      obtain ⟨before, hnone⟩ := firstObjection_eq_none (verdict_eq_ok.mp hverdict.symm) c hc
      rw [hleast.changeObjection?_eq] at hnone
      cases hnone

/-! ### A block with two changes, and the least word -/

/-- A delegation and a smaller undelegation. -/
def sampleEvents : List EventRecord :=
  [.push (.ofKind "delegate_success") "amount" "100", .push (.ofKind "undelegate_success") "amount" "30"]

/-- The same two as they are stored. -/
def sampleStored : List Change := [⟨7, some 100, .stake, "100"⟩, ⟨7, some 100, .unstake, "30"⟩]

/-- They are added to the entry that their height has already; as stored changes they make an entry. -/
theorem sampleEvents_summed :
    Deltas.addEvents 7 sampleEvents [(7, -5)] = (.ok (), [(7, 65)]) ∧ Summed [(7, -5)] 7 sampleEvents [(7, 65)] ∧
    Deltas.ofChanges sampleStored = .ok ([(7, 70)], [(7, 100)]) ∧ Gathered sampleStored ([(7, 70)], [(7, 100)]) := by
  have hs : Sound [(7, -5)] := ⟨List.pairwise_singleton _ _, by decide⟩
  have hadd : Deltas.addEvents 7 sampleEvents [(7, -5)] = (.ok (), [(7, 65)]) := by rfl
  have hcollect : Deltas.ofChanges sampleStored = .ok ([(7, 70)], [(7, 100)]) := by rfl
  obtain ⟨⟨-, hsummed, -⟩, -, hgathered, -⟩ := changes_exact_or_refused hs 7 sampleEvents sampleStored
  exact ⟨hadd, hsummed _ hadd, hcollect, hgathered _ hcollect⟩

/-- **Taking the least word off breaks the task**, though its text is a numeral. -/
theorem least_word_breaks :
    readAmount "-9223372036854775808" = .ok Word.least ∧
    Deltas.addEvents 7 [.push (.ofKind "undelegate_success") "amount" "-9223372036854775808"] [] = (.error .crash, []) ∧
    Deltas.ofChanges [⟨7, some 100, .unstake, "-9223372036854775808"⟩] = .error .crash :=
  ⟨rfl, rfl, rfl⟩

end StakeTrail.Stake
