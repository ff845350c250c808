import Mathlib
import StakeTrail.Indexing.Consensus
import StakeTrail.Proofs.Ends

/-!
# What events change

What an event is worth, read off its kind and its amount: `net` is what it adds to the total stake, and `carries` says
whether it counts as a change at all. An absent or empty amount is worth nothing.

The deltas that are collected from some heights hold one entry for each height that carries a change, with the sum of
what its events are worth, in ascending order (`deltasOf_eq`); every amount among them is readable.
-/

namespace StakeTrail.Stake

open StakeTrail.Action

/-- The amount of an event as it is written. -/
def amountText (e : EventRecord) : String := (e.get? "amount").getD ""

/-- The amount that a text stands for. -/
def worth (raw : String) : Int := (readAmount raw).toOption.getD 0

/-- Whether an event is a change: a successful delegation or undelegation with an amount. -/
def carries (e : EventRecord) : Bool :=
  (e.kind == "delegate_success" || e.kind == "undelegate_success") && !(amountText e).isEmpty

/-- **What an event adds to the total stake.** -/
def net (e : EventRecord) : Int :=
  if e.kind = "delegate_success" then worth (amountText e)
  else if e.kind = "undelegate_success" then -worth (amountText e)
  else 0

/-- The amount of an event, if it counts, is a numeral. -/
def Readable (e : EventRecord) : Prop := carries e = true → ∃ n, readAmount (amountText e) = .ok n

/-- What the events of a height add up to. -/
def netOf (events : List EventRecord) : Int := (events.map net).sum

/-- The entry of a height in the deltas. -/
def entry (h : Nat) (events : List EventRecord) : Deltas := if events.any carries then [(h, netOf events)] else []

/-- The entries of heights that follow each other. -/
def entries : Nat → List (List EventRecord) → Deltas
  | _, [] => []
  | h, events :: rest => entry h events ++ entries (h + 1) rest

/-! ## One event -/

theorem worth_empty : worth "" = 0 := rfl

theorem net_of_not_carries {e : EventRecord} (h : carries e = false) : net e = 0 := by
  unfold net
  unfold carries at h
  by_cases ha : amountText e = ""
  · rw [ha, worth_empty]
    simp
  · have hne : (amountText e).isEmpty = false := by simpa using ha
    simp only [hne, Bool.not_false, Bool.and_true, Bool.or_eq_false_iff, beq_eq_false_iff_ne] at h
    rw [if_neg h.1, if_neg h.2]

theorem netOf_cons (e : EventRecord) (events : List EventRecord) : netOf (e :: events) = net e + netOf events := rfl

theorem netOf_concat (events : List EventRecord) (e : EventRecord) :
    netOf (events ++ [e]) = netOf events + net e := by
  simp [netOf]

theorem netOf_of_not_carries : ∀ {events : List EventRecord}, events.any carries = false → netOf events = 0
  | [], _ => rfl
  | e :: events, h => by
    rw [List.any_cons, Bool.or_eq_false_iff] at h
    rw [netOf_cons, net_of_not_carries h.1, netOf_of_not_carries h.2, Int.add_zero]

/-- **How an event is read**: nothing unless it is a change, and then its amount with its sign. -/
theorem eventDelta_apply (e : EventRecord) :
    eventDelta e =
      if carries e then
        (readAmount (amountText e)).bind fun n =>
          if e.kind = "delegate_success" then .ok (some n) else (negated n).map some
      else .ok none := by
  have hfilter : (e.get? "amount").filter (fun raw => !raw.isEmpty) =
      if (amountText e).isEmpty then none else some (amountText e) := by
    unfold amountText
    rcases e.get? "amount" with _ | raw
    · rfl
    · by_cases hr : raw.isEmpty <;> simp [Option.filter, hr]
  unfold eventDelta carries
  rw [hfilter]
  by_cases hempty : (amountText e).isEmpty = true
  · simp [hempty]
  · by_cases hd : e.kind = "delegate_success"
    · rcases hr : readAmount (amountText e) with why | n <;> simp [hempty, hd, hr, Except.map, Except.bind]
    · by_cases hu : e.kind = "undelegate_success"
      · rcases hr : readAmount (amountText e) with why | n <;> simp [hempty, hu, hr, Except.bind, bind]
      · simp [hd, hu]

/-- What is read of an event: nothing unless it is a change, and then what it is worth. -/
theorem eventDelta_eq {e : EventRecord} {d : Option Int} (h : eventDelta e = .ok d) :
    d = (if carries e then some (net e) else none) ∧ Readable e := by
  rw [eventDelta_apply] at h
  unfold Readable
  by_cases hc : carries e = true
  · rw [if_pos hc] at h ⊢
    rcases hr : readAmount (amountText e) with why | n <;> rw [hr] at h
    · cases h
    · refine ⟨?_, fun _ => ⟨n, rfl⟩⟩
      have hworth : worth (amountText e) = n := by rw [worth, hr]; rfl
      simp only [Except.bind] at h
      unfold net
      by_cases hd : e.kind = "delegate_success"
      · rw [if_pos hd] at h ⊢
        rw [hworth]
        exact (Except.ok.inj h).symm
      · have hu : e.kind = "undelegate_success" := by simpa [carries, hd] using (Bool.and_eq_true_iff.mp hc).1
        rw [if_neg hd, negated] at h
        rw [if_neg hd, if_pos hu, hworth]
        split at h <;> cases h
        rfl
  · rw [if_neg hc] at h ⊢
    exact ⟨(Except.ok.inj h).symm, fun h => absurd h hc⟩

/-! ## The events of some heights -/

theorem add?_eq {a b c : Int} (h : Word.add? a b = some c) : c = a + b := by
  unfold Word.add? at h
  split at h
  · exact (Option.some.inj h).symm
  · cases h

/-- A change at a height above all others comes last. -/
theorem plus_above (h : Nat) (d : Int) : ∀ {done : Deltas}, (∀ p ∈ done, p.1 < h) →
    Deltas.plus h d done = .ok (done ++ [(h, d)])
  | [], _ => rfl
  | (k, x) :: done, hlt => by
    have hk : k < h := hlt (k, x) List.mem_cons_self
    rw [Deltas.plus, if_neg (by omega), if_neg (by omega),
      plus_above h d fun p hp => hlt p (List.mem_cons_of_mem _ hp)]
    rfl

/-- A change at the last height is added to its entry. -/
theorem plus_last (h : Nat) (x d : Int) : ∀ {done : Deltas}, (∀ p ∈ done, p.1 < h) → ∀ {next : Deltas},
    Deltas.plus h d (done ++ [(h, x)]) = .ok next → next = done ++ [(h, x + d)]
  | [], _, next, hp => by
    rw [List.nil_append, Deltas.plus, if_neg (Nat.lt_irrefl h), if_pos rfl] at hp
    split at hp
    · rename_i sum hs
      cases hp
      rw [add?_eq hs, List.nil_append]
    · cases hp
  | (k, y) :: done, hlt, next, hp => by
    have hk : k < h := hlt (k, y) List.mem_cons_self
    rw [List.cons_append, Deltas.plus, if_neg (by omega), if_neg (by omega)] at hp
    rcases hr : Deltas.plus h d (done ++ [(h, x)]) with e | rest <;> rw [hr] at hp <;> cases hp
    rw [plus_last h x d (fun p hp => hlt p (List.mem_cons_of_mem _ hp)) hr, List.cons_append]

/-- One more event of the last height. -/
theorem plus_entry {h : Nat} {done next : Deltas} (hlt : ∀ p ∈ done, p.1 < h) {pre : List EventRecord}
    {e : EventRecord} (he : carries e = true) (hp : Deltas.plus h (net e) (done ++ entry h pre) = .ok next) :
    next = done ++ entry h (pre ++ [e]) := by
  have hany : (pre ++ [e]).any carries = true := by simp [he]
  unfold entry at hp ⊢
  rw [if_pos hany, netOf_concat]
  by_cases hpre : pre.any carries = true
  · rw [if_pos hpre] at hp
    exact plus_last h _ _ hlt hp
  · rw [if_neg hpre, List.append_nil, plus_above h _ hlt] at hp
    rw [netOf_of_not_carries (Bool.eq_false_iff.mpr hpre), Int.zero_add]
    exact (Except.ok.inj hp).symm

/-- **The events of a height** leave its entry behind those of the lower heights. -/
theorem addEvents_ends {h : Nat} {done : Deltas} (hlt : ∀ p ∈ done, p.1 < h) (events : List EventRecord) :
    Ends (fun s => s = done) (Deltas.addEvents h events)
      (fun _ s => s = done ++ entry h events ∧ ∀ e ∈ events, Readable e) fun _ => True := by
  have hempty : done ++ entry h [] = done := List.append_nil done
  refine (Ends.each (I := fun pre s => s = done ++ entry h pre ∧ ∀ e ∈ pre, Readable e) (fun pre e _ => ?_)
    []).pre fun s hs => ⟨hempty.symm ▸ hs, fun _ he => nomatch he⟩
  rintro s ⟨rfl, hpre⟩
  rcases hd : eventDelta e with why | d
  · simp only [bind_apply, ofExcept_apply]
  · obtain ⟨rfl, hread⟩ := eventDelta_eq hd
    have hpre' : ∀ e' ∈ pre ++ [e], Readable e' := by
      simpa [or_imp, forall_and] using ⟨hpre, hread⟩
    simp only [bind_apply, ofExcept_apply]
    cases hc : carries e with
    | false =>
      refine ⟨?_, hpre'⟩
      have : entry h (pre ++ [e]) = entry h pre := by
        simp [entry, hc, netOf_concat, net_of_not_carries hc]
      rw [this]
    | true =>
      simp only [if_true, Deltas.add]
      rcases hp : Deltas.plus h (net e) (done ++ entry h pre) with why | next
      · simp only
      · exact ⟨plus_entry hlt hc hp, hpre'⟩

end StakeTrail.Stake

namespace StakeTrail.Indexing.Consensus

open StakeTrail.Action Stake

theorem addHeights_ends : ∀ {lists : List (List EventRecord)} {h : Nat} {done : Deltas}, (∀ p ∈ done, p.1 < h) →
    Ends (fun s => s = done) (addHeights h lists)
      (fun _ s => s = done ++ entries h lists ∧ ∀ events ∈ lists, ∀ e ∈ events, Readable e) fun _ => True
  | [], _, done, _ => Ends.pure fun s hs => ⟨by rw [hs, entries, List.append_nil], fun _ he => nomatch he⟩
  | events :: rest, h, done, hlt => by
    have hlt' : ∀ p ∈ done ++ entry h events, p.1 < h + 1 := by
      intro p hp
      rcases List.mem_append.mp hp with hp | hp
      · exact Nat.lt_succ_of_lt (hlt p hp)
      · unfold entry at hp
        split at hp
        · rw [List.mem_singleton.mp hp]
          exact Nat.lt_succ_self h
        · cases hp
    refine (addEvents_ends hlt events).bind fun _ => ?_
    rintro s ⟨rfl, hread⟩
    refine ((addHeights_ends hlt').post fun _ s hs => ?_) _ rfl
    refine ⟨by rw [hs.1, entries, List.append_assoc], ?_⟩
    simpa using ⟨hread, hs.2⟩

/-- **The deltas of some heights**: an entry for each that carries a change, with what its events add up to. -/
theorem deltasOf_eq {first : Nat} {lists : List (List EventRecord)} {deltas : Deltas}
    (h : deltasOf first lists = .ok deltas) :
    deltas = entries first lists ∧ ∀ events ∈ lists, ∀ e ∈ events, Readable e := by
  unfold deltasOf at h
  rcases ha : addHeights first lists [] with ⟨why | ⟨⟩, s⟩ <;> rw [ha] at h <;> cases h
  exact (addHeights_ends (by simp)).of_ok rfl ha

end StakeTrail.Indexing.Consensus
