import StakeTrail.Proofs.Faults
import StakeTrail.Stake.Ledger

/-!
# Where block times can be missed

Of all that is done with changes and ledgers only two steps miss a block time: a stored change that comes without one, and
a height that is applied without one. So changes that all come with their times give entries that all have theirs
(`Dated`, `ofChanges_timed`), and such entries are applied without missing any (`apply_timed`, `applyByBlock_timed`).
-/

namespace StakeTrail.Stake

open StakeTrail.Action

/-- Faults other than a missing block time. -/
def Timed : Fault → Prop
  | .missingBlockTime _ => False
  | _ => True

/-- Every entry has a time. -/
def Dated (deltas : Deltas) (times : Times) : Prop := ∀ p ∈ deltas, ∃ q, Keyed.get? Prod.fst p.1 times = some q

/-! ## Amounts and sums -/

theorem readAmount_timed {raw : String} {e : Fault} (h : readAmount raw = .error e) : Timed e := by
  unfold readAmount at h
  split at h
  · cases h
  · split at h <;> cases h
    trivial

theorem negated_timed {amount : Int} {e : Fault} (h : negated amount = .error e) : Timed e := by
  unfold negated at h
  split at h <;> cases h
  trivial

theorem eventDelta_timed {event : EventRecord} {e : Fault} (h : eventDelta event = .error e) : Timed e := by
  unfold eventDelta at h
  simp only at h
  split at h
  · split at h
    · cases h
    · rename_i raw _
      rcases hr : readAmount raw with e' | n <;> rw [hr] at h <;> cases h
      exact readAmount_timed hr
  · split at h
    · split at h
      · cases h
      · rename_i raw _
        rcases hr : readAmount raw with e' | n <;> rw [hr] at h
        · cases h
          exact readAmount_timed hr
        · rcases hn : negated n with e' | m <;> simp only [bind, Except.bind, hn] at h <;> cases h
          exact negated_timed hn
    · cases h

theorem plus_timed {height : Nat} {delta : Int} {e : Fault} : ∀ {deltas : Deltas},
    Deltas.plus height delta deltas = .error e → Timed e
  | [], h => by cases h
  | (k, d) :: rest, h => by
    rw [Deltas.plus] at h
    split at h
    · cases h
    · split at h
      · split at h <;> cases h
        trivial
      · rcases hr : Deltas.plus height delta rest with e' | later <;> rw [hr] at h <;> cases h
        exact plus_timed hr

/-- One more change adds no height but its own. -/
theorem plus_heights {height : Nat} {delta : Int} : ∀ {deltas next : Deltas},
    Deltas.plus height delta deltas = .ok next → ∀ p ∈ next, p.1 = height ∨ ∃ q ∈ deltas, q.1 = p.1
  | [], next, h, p, hp => by
    cases h
    rw [List.mem_singleton.mp hp]
    exact .inl rfl
  | (k, d) :: rest, next, h, p, hp => by
    rw [Deltas.plus] at h
    split at h
    · cases h
      rcases List.mem_cons.mp hp with rfl | hp
      · exact .inl rfl
      · exact .inr ⟨p, hp, rfl⟩
    · split at h
      · rename_i heq
        split at h <;> cases h
        rcases List.mem_cons.mp hp with rfl | hp
        · exact .inl heq.symm
        · exact .inr ⟨p, List.mem_cons_of_mem _ hp, rfl⟩
      · rcases hr : Deltas.plus height delta rest with e' | later <;> rw [hr] at h <;> cases h
        rcases List.mem_cons.mp hp with rfl | hp
        · exact .inr ⟨_, List.mem_cons_self, rfl⟩
        · rcases plus_heights hr p hp with hp | ⟨q, hq, hqp⟩
          · exact .inl hp
          · exact .inr ⟨q, List.mem_cons_of_mem _ hq, hqp⟩

theorem add_gives (deltas : Deltas) (height : Nat) (delta : Int) :
    Gives (fun s => s = deltas) (Deltas.add height delta)
      (fun _ s => Deltas.plus height delta deltas = .ok s) Timed := by
  rintro s rfl
  unfold Deltas.add
  rcases hp : Deltas.plus height delta s with e | next
  · exact plus_timed hp
  · rfl

/-- **The events of a block** are added without a look at times. -/
theorem addEvents_gives (height : Nat) (events : List EventRecord) :
    Gives (fun _ => True) (Deltas.addEvents height events) (fun _ _ => True) Timed := by
  refine Gives.each fun event _ => ?_
  refine (Gives.ofExcept fun e he => eventDelta_timed he).bind fun d => Gives.assuming fun _ => ?_
  rcases d with _ | d
  · exact Gives.pure fun _ _ => trivial
  · exact fun s _ => ((add_gives s height d).post fun _ _ _ => trivial) s rfl

/-! ## Stored changes -/

/-- **A change with its time** is added together with it. -/
theorem addChange_gives {c : Change} (hc : ∃ time, c.time = some time) :
    Gives (fun s => Dated s.1 s.2) (addChange c) (fun _ s => Dated s.1 s.2) Timed := by
  obtain ⟨block, time?, kind, amount⟩ := c
  obtain ⟨time, rfl : time? = some time⟩ := hc
  have happly : ∀ d, Gives (fun s : Deltas × Times => Dated s.1 s.2)
      (do
        within (·.1) (fun d s => (d, s.2)) (Deltas.add block d)
        update fun s : Deltas × Times => (s.1, Keyed.put Prod.fst (block, time) s.2))
      (fun _ s => Dated s.1 s.2) Timed := by
    intro d
    rintro ⟨deltas, times⟩ hs
    have hadd : Gives (fun s : Deltas × Times => s.1 = deltas ∧ s.2 = times)
        (within (·.1) (fun d s => (d, s.2)) (Deltas.add block d))
        (fun _ s => Deltas.plus block d deltas = .ok s.1 ∧ s.2 = times) Timed :=
      (add_gives deltas block d).within (fun _ _ => rfl) fun _ _ h => h
    refine (hadd.bind fun _ => Gives.update ?_) (deltas, times) ⟨rfl, rfl⟩
    rintro ⟨next, times'⟩ ⟨hp, rfl⟩ p hmem
    simp only [Keyed.get?_put]
    split
    · exact ⟨_, rfl⟩
    · rename_i hne
      rcases plus_heights hp p hmem with hp | ⟨q, hq, hqp⟩
      · exact absurd hp.symm hne
      · exact hqp ▸ hs q hq
  refine (Gives.ofExcept fun e he => readAmount_timed he).bind fun n => Gives.assuming fun _ => ?_
  rcases kind <;> try exact Gives.pure fun _ hs => hs
  case stake => exact happly n
  case unstake =>
    exact (Gives.ofExcept fun e he => negated_timed he).bind fun d => Gives.assuming fun _ => happly d

/-- **Changes that come with their times** give entries that have theirs. -/
theorem ofChanges_timed {changes : List Change} (h : ∀ c ∈ changes, ∃ time, c.time = some time) :
    (∀ e, Deltas.ofChanges changes = .error e → Timed e) ∧
      ∀ deltas times, Deltas.ofChanges changes = .ok (deltas, times) → Dated deltas times := by
  have hgives : Gives (fun s => Dated s.1 s.2) (each addChange changes) (fun _ s => Dated s.1 s.2) Timed :=
    Gives.each fun c hc => addChange_gives (h c hc)
  have hrun := hgives ([], []) fun _ hp => nomatch hp
  unfold Deltas.ofChanges
  rcases hx : each addChange changes ([], []) with ⟨e | ⟨⟩, s⟩ <;> rw [hx] at hrun
  · refine ⟨fun e' he' => ?_, fun _ _ h => nomatch h⟩
    cases he'
    exact hrun
  · refine ⟨fun _ h => (nomatch h), fun deltas times h => ?_⟩
    cases h
    exact hrun

/-! ## Ledgers -/

/-- A height with a time is not missed. -/
theorem step_timed {ledger : Ledger} {times : Times} {height : Nat} {delta : Int} {e : Fault}
    (ht : ∃ q, Keyed.get? Prod.fst height times = some q) (h : ledger.step times height delta = .error e) :
    Timed e := by
  obtain ⟨q, hq⟩ := ht
  simp only [Ledger.step, hq] at h
  split at h <;> cases h
  trivial

/-- **Entries that have their times** are applied without missing any. -/
theorem applyOnto_timed {times : Times} {e : Fault} : ∀ {deltas : Deltas} {ledger : Ledger} {points : List Point},
    Dated deltas times → Ledger.applyOnto times points ledger deltas = .error e → Timed e
  | [], _, _, _, h => by cases h
  | (height, delta) :: rest, ledger, points, hd, h => by
    obtain ⟨hhere, hrest⟩ := List.forall_mem_cons.mp hd
    rw [Ledger.applyOnto] at h
    rcases hs : ledger.step times height delta with e' | ⟨time, next⟩ <;> rw [hs] at h
    · cases h
      exact step_timed hhere hs
    · exact applyOnto_timed hrest h

theorem applyByBlockOnto_timed {times : Times} {e : Fault} : ∀ {deltas : Deltas} {ledger : Ledger}
    {rows : List HistoryPoint}, Dated deltas times →
    Ledger.applyByBlockOnto times rows ledger deltas = .error e → Timed e
  | [], _, _, _, h => by cases h
  | (height, delta) :: rest, ledger, rows, hd, h => by
    obtain ⟨hhere, hrest⟩ := List.forall_mem_cons.mp hd
    rw [Ledger.applyByBlockOnto] at h
    rcases hs : ledger.step times height delta with e' | ⟨time, next⟩ <;> rw [hs] at h
    · cases h
      exact step_timed hhere hs
    · exact applyByBlockOnto_timed hrest h

end StakeTrail.Stake
