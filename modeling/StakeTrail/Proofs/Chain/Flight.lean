import Mathlib
import StakeTrail.Chain.Window
import StakeTrail.Proofs.Traversal

/-!
# Requests that are answered in any order

`Happens` is what may happen to the requests of a range: with room, the next height is asked for; any request that is on
its way is answered; the answer in front is handed on, and a fault in front ends it all. A `Flight` is any sequence of
such events, so its answers come in any order.

* `Flight.orderly` is what all flights keep: the answers handed on are those of the first heights, what is on its way
  are the next ones, at most `width` of them, and a fault is that of the height whose turn it is.
* A flight in which nothing more can happen ends as asking for one height after the other does
  (`Orderly.verdict`, `Verdict.unique`), and no flight goes on forever (`Flight.length_le`).
* The window that answers the requests as `picks` says is such a flight (`after_flight`), and when it has answered as
  often as there are heights nothing more can happen (`after_isOver`).

**The main statement** (`flights_agree`) puts these together.
-/

namespace StakeTrail.Feed

variable {α : Type} {fetch : Nat → Except Fault α} {first last : Nat}

/-! ## One height after the other -/

/-- Values for some heights from `first` on. -/
abbrev Values (fetch : Nat → Except Fault α) (first n : Nat) (l : List α) : Prop :=
  List.Forall₂ (fun h a => fetch h = .ok a) (List.range' first n) l

/-- **What comes of a range**: the values of all heights in order, or the fault of the lowest height that fails. -/
inductive Verdict (fetch : Nat → Except Fault α) (first last : Nat) : Except Fault (List α) → Prop
  | values {l : List α} : Values fetch first (last + 1 - first) l → Verdict fetch first last (.ok l)
  | fault {h : Nat} {e : Fault} : first ≤ h → h ≤ last → (∀ g, first ≤ g → g < h → ∃ a, fetch g = .ok a) →
      fetch h = .error e → Verdict fetch first last (.error e)

/-- Heights that have values do not fail. -/
theorem Values.exists_ok {n h : Nat} {l : List α} (hl : Values fetch first n l) (h₁ : first ≤ h) (h₂ : h < first + n) :
    ∃ a, fetch h = .ok a :=
  Traversal.exists_mapM_eq_ok.mp ⟨l, Traversal.mapM_eq_ok.mpr hl⟩ h (List.mem_range'_1.mpr ⟨h₁, h₂⟩)

theorem Values.not_error {n h : Nat} {l : List α} {e : Fault} (hl : Values fetch first n l) (h₁ : first ≤ h)
    (h₂ : h < first + n) : fetch h ≠ .error e := by
  obtain ⟨a, ha⟩ := hl.exists_ok h₁ h₂
  simp [ha]

theorem Verdict.unique {r r' : Except Fault (List α)} (hr : Verdict fetch first last r)
    (hr' : Verdict fetch first last r') : r = r' := by
  cases hr with
  | values hl =>
    cases hr' with
    | values hl' => rw [← Traversal.mapM_eq_ok.mpr hl, ← Traversal.mapM_eq_ok.mpr hl']
    | fault h₁ h₂ _ he => exact absurd he (hl.not_error h₁ (by omega))
  | @fault h e h₁ h₂ hbefore he =>
    cases hr' with
    | values hl' => exact absurd he (hl'.not_error h₁ (by omega))
    | @fault h' e' h₁' h₂' hbefore' he' =>
      have hsame : h = h' := by
        rcases Nat.lt_trichotomy h h' with hlt | heq | hlt
        · obtain ⟨a, ha⟩ := hbefore' h h₁ hlt
          cases ha.symm.trans he
        · exact heq
        · obtain ⟨a, ha⟩ := hbefore h' h₁' hlt
          cases ha.symm.trans he'
      subst hsame
      cases he.symm.trans he'
      rfl

theorem gatherFrom_eq_mapM : ∀ (n h : Nat) (acc : List α),
    gatherFrom fetch n h acc = ((List.range' h n).mapM fetch).map (acc.reverse ++ ·)
  | 0, h, acc => by simp [gatherFrom, pure, Except.pure, Except.map]
  | n + 1, h, acc => by
    unfold gatherFrom
    rw [List.range'_succ, List.mapM_cons]
    rcases fetch h with e | a
    · rfl
    · dsimp only
      rw [gatherFrom_eq_mapM n (h + 1)]
      rcases (List.range' (h + 1) n).mapM fetch with e | l
      · rfl
      · simp [bind, Except.bind, pure, Except.pure, Except.map]

/-- **Asking for one height after the other.** -/
theorem gather_verdict (first last : Nat) (fetch : Nat → Except Fault α) :
    Verdict fetch first last (gather first last fetch) := by
  have hgather : gather first last fetch = (List.range' first (last + 1 - first)).mapM fetch := by
    rw [gather, gatherFrom_eq_mapM]
    rcases (List.range' first (last + 1 - first)).mapM fetch with e | l <;> rfl
  rw [hgather]
  rcases hr : (List.range' first (last + 1 - first)).mapM fetch with e | l
  · obtain ⟨front, h, back, hrange, hfront, he⟩ := Traversal.mapM_eq_error.mp hr
    obtain ⟨k, hk, rfl, hback⟩ := List.range'_eq_append_iff.mp hrange
    obtain ⟨hh, hn, -⟩ := List.range'_eq_cons_iff.mp hback.symm
    refine .fault (h := h) (by omega) (by omega) (fun g h₁ h₂ => hfront g ?_) he
    exact List.mem_range'_1.mpr ⟨h₁, by omega⟩
  · exact .values (Traversal.mapM_eq_ok.mp hr)

/-- Values are those of all heights in order. -/
theorem values_of_gather {l : List α} (hl : gather first last fetch = .ok l) :
    Values fetch first (last + 1 - first) l := by
  have hverdict := gather_verdict first last fetch
  rw [hl] at hverdict
  cases hverdict with
  | values hvalues => exact hvalues

/-- A fault is that of the lowest height that fails. -/
theorem lowest_of_gather {e : Fault} (he : gather first last fetch = .error e) :
    ∃ h, first ≤ h ∧ h ≤ last ∧ fetch h = .error e ∧ ∀ g, first ≤ g → g < h → ∃ a, fetch g = .ok a := by
  have hverdict := gather_verdict first last fetch
  rw [he] at hverdict
  cases hverdict with
  | fault h₁ h₂ hbefore hfails => exact ⟨_, h₁, h₂, hfails, hbefore⟩

theorem exists_gather_eq_ok :
    (∃ l, gather first last fetch = .ok l) ↔ ∀ h, first ≤ h → h ≤ last → ∃ a, fetch h = .ok a := by
  constructor
  · rintro ⟨l, hl⟩ h h₁ h₂
    exact (values_of_gather hl).exists_ok h₁ (by omega)
  · intro hok
    rcases hr : gather first last fetch with e | l
    · obtain ⟨h, h₁, h₂, he, -⟩ := lowest_of_gather hr
      obtain ⟨a, ha⟩ := hok h h₁ h₂
      cases ha.symm.trans he
    · exact ⟨l, rfl⟩

namespace Window

/-! ## Flights -/

/-- What happens to the request for a height. -/
inductive Event
  | asked (height : Nat)
  | answered (height : Nat)
  | handedOn (height : Nat)
  deriving DecidableEq, Repr

variable {w w' : Window α} {events : List Event}

/-- **One event.** At most `width` requests that were asked for are kept until they are handed on, and they are handed
on in the order in which they were asked for. -/
inductive Happens (fetch : Nat → Except Fault α) (last : Nat) : Window α → Event → Window α → Prop
  | asked {w : Window α} : w.fault = none → w.flying.length < width → w.next ≤ last →
      Happens fetch last w (.asked w.next) { w with flying := w.flying ++ [(w.next, none)], next := w.next + 1 }
  | answered {w : Window α} {h : Nat} : (h, none) ∈ w.flying →
      Happens fetch last w (.answered h) (w.answer fetch h)
  | value {w : Window α} {h : Nat} {a : α} {rest : List (Nat × Option (Except Fault α))} :
      w.flying = (h, some (.ok a)) :: rest →
      Happens fetch last w (.handedOn h) { w with flying := rest, values := a :: w.values }
  | fault {w : Window α} {h : Nat} {e : Fault} {rest : List (Nat × Option (Except Fault α))} :
      w.flying = (h, some (.error e)) :: rest →
      Happens fetch last w (.handedOn h) { w with flying := [], fault := some e }

/-- **A flight**: the requests for a range after some events, whatever their order. -/
inductive Flight (fetch : Nat → Except Fault α) (first last : Nat) : List Event → Window α → Prop
  | start : Flight fetch first last [] { next := first }
  | next {events : List Event} {w w' : Window α} {event : Event} : Flight fetch first last events w →
      Happens fetch last w event w' → Flight fetch first last (events ++ [event]) w'

/-- Nothing more can happen. -/
def IsOver (fetch : Nat → Except Fault α) (last : Nat) (w : Window α) : Prop :=
  ∀ event w', ¬Happens fetch last w event w'

/-! ### What flights keep -/

/-- **The requests are in order.** -/
structure Orderly (fetch : Nat → Except Fault α) (first last : Nat) (w : Window α) : Prop where
  values : Values fetch first w.values.length w.values.reverse
  heights : w.flying.map Prod.fst = List.range' (first + w.values.length) w.flying.length
  answers : ∀ h r, (h, some r) ∈ w.flying → r = fetch h
  room : w.flying.length ≤ width
  next : w.fault = none → w.next = first + w.values.length + w.flying.length
  ahead : w.next ≤ first + w.values.length + width
  within : w.next ≤ max first (last + 1)
  fault : ∀ e, w.fault = some e →
    w.flying = [] ∧ fetch (first + w.values.length) = .error e ∧ first + w.values.length < w.next

/-- The height in front is the one whose turn it is. -/
theorem Orderly.front (ho : Orderly fetch first last w) {h : Nat} {r : Option (Except Fault α)}
    {rest : List (Nat × Option (Except Fault α))} (hw : w.flying = (h, r) :: rest) :
    w.fault = none ∧ h = first + w.values.length ∧
      rest.map Prod.fst = List.range' (first + w.values.length + 1) rest.length := by
  have hfault : w.fault = none := by
    rcases hf : w.fault with _ | e
    · rfl
    · rw [(ho.fault e hf).1] at hw
      cases hw
  have hheights := ho.heights
  rw [hw, List.map_cons, List.length_cons, List.range'_succ] at hheights
  exact ⟨hfault, List.cons.inj hheights⟩

theorem orderly_start : Orderly fetch first last { next := first } where
  values := .nil
  heights := rfl
  answers := nofun
  room := Nat.zero_le _
  next _ := rfl
  ahead := Nat.le_add_right _ _
  within := le_max_left _ _
  fault := nofun

theorem length_answer (fetch : Nat → Except Fault α) (h : Nat) (w : Window α) :
    (w.answer fetch h).flying.length = w.flying.length := List.length_map _

theorem heights_answer (fetch : Nat → Except Fault α) (h : Nat) (w : Window α) :
    (w.answer fetch h).flying.map Prod.fst = w.flying.map Prod.fst := by
  rw [answer, List.map_map]
  refine List.map_congr_left fun slot _ => ?_
  by_cases hslot : slot.1 = h <;> simp [hslot]

/-- **One event keeps the order.** -/
theorem Orderly.happens (ho : Orderly fetch first last w) {event : Event} (h : Happens fetch last w event w') :
    Orderly fetch first last w' := by
  cases h with
  | asked hfault hroom hlast =>
    have hnext := ho.next hfault
    refine ⟨ho.values, ?_, ?_, ?_, ?_, ?_, ?_, fun e he => ?_⟩
    · simp only [List.map_append, List.map_cons, List.map_nil, List.length_append, List.length_singleton, ho.heights,
        hnext, List.range'_concat, Nat.one_mul]
    · intro h r hmem
      rcases List.mem_append.mp hmem with hmem | hmem
      · exact ho.answers h r hmem
      · cases List.mem_singleton.mp hmem
    · simpa using hroom
    · intro _
      simp only [List.length_append, List.length_singleton]
      omega
    · dsimp only
      omega
    · dsimp only
      omega
    · exact absurd (hfault.symm.trans he) (by simp)
  | @answered h hmem =>
    have hne : w.flying ≠ [] := List.ne_nil_of_mem hmem
    refine ⟨ho.values, ?_, ?_, ?_, ?_, ho.ahead, ho.within, fun e he => absurd (ho.fault e he).1 hne⟩
    · rw [heights_answer, length_answer]
      exact ho.heights
    · intro h' r hanswered
      obtain ⟨slot, hslot, heq⟩ := List.mem_map.mp hanswered
      by_cases hh : slot.1 = h
      · rw [if_pos hh] at heq
        cases heq
        rfl
      · rw [if_neg hh] at heq
        subst heq
        exact ho.answers h' r hslot
    · rw [length_answer]
      exact ho.room
    · rw [length_answer]
      exact ho.next
  | @value h a rest hw =>
    obtain ⟨hfault, rfl, hrest⟩ := ho.front hw
    have hroom := ho.room
    have hnext := ho.next hfault
    have hahead := ho.ahead
    rw [hw, List.length_cons] at hroom hnext
    have ha : fetch (first + w.values.length) = .ok a := (ho.answers _ _ (hw ▸ List.mem_cons_self)).symm
    refine ⟨?_, ?_, ?_, ?_, ?_, ?_, ho.within, fun e he => absurd (hfault.symm.trans he) (by simp)⟩
    · show Values fetch first (w.values.length + 1) (a :: w.values).reverse
      rw [Values, List.range'_concat, Nat.one_mul, List.reverse_cons]
      exact List.rel_append ho.values (.cons ha .nil)
    · exact hrest
    · intro h r hmem
      exact ho.answers h r (hw ▸ List.mem_cons_of_mem _ hmem)
    · dsimp only
      omega
    · intro _
      simp only [List.length_cons]
      omega
    · simp only [List.length_cons]
      omega
  | @fault h e rest hw =>
    obtain ⟨hfault, rfl, -⟩ := ho.front hw
    have hnext := ho.next hfault
    rw [hw, List.length_cons] at hnext
    have he : fetch (first + w.values.length) = .error e := (ho.answers _ _ (hw ▸ List.mem_cons_self)).symm
    refine ⟨ho.values, rfl, nofun, Nat.zero_le _, nofun, ho.ahead, ho.within, fun e' he' => ⟨rfl, ?_, ?_⟩⟩
    · cases he'
      exact he
    · dsimp only
      omega

/-- **All flights keep the order.** -/
theorem Flight.orderly (h : Flight fetch first last events w) : Orderly fetch first last w := by
  induction h with
  | start => exact orderly_start
  | next _ hevent ih => exact ih.happens hevent

/-- Of the heights from a failing one on, fewer than `width` are asked for. -/
theorem Orderly.next_le (ho : Orderly fetch first last w) {h : Nat} {e : Fault} (hfirst : first ≤ h)
    (he : fetch h = .error e) : w.next ≤ h + width := by
  have hturn : first + w.values.length ≤ h := by
    by_contra hpast
    exact ho.values.not_error hfirst (by omega) he
  have := ho.ahead
  omega

theorem Happens.next_le {event : Event} (h : Happens fetch last w event w') : w.next ≤ w'.next := by
  cases h with
  | asked => exact Nat.le_succ _
  | answered => exact Nat.le_refl _
  | value => exact Nat.le_refl _
  | fault => exact Nat.le_refl _

/-- What was asked for lies before what is asked for next. -/
theorem Flight.asked_lt (h : Flight fetch first last events w) {g : Nat} (hg : .asked g ∈ events) : g < w.next := by
  induction h with
  | start => cases hg
  | next _ hevent ih =>
    rcases List.mem_append.mp hg with hg | hg
    · exact Nat.lt_of_lt_of_le (ih hg) hevent.next_le
    · cases List.mem_singleton.mp hg
      cases hevent
      exact Nat.lt_succ_self _

/-! ### Flights end -/

/-- The events that a request is yet to meet: its answer, and that it is handed on. -/
def eventsLeft : Option (Except Fault α) → Nat
  | none => 2
  | some _ => 1

/-- The events that may still come; a height that was not asked for has three of them before it. -/
def ahead (last : Nat) (w : Window α) : Nat :=
  3 * (last + 1 - w.next) + (w.flying.map fun slot => eventsLeft slot.2).sum

theorem Happens.ahead_lt {event : Event} (h : Happens fetch last w event w') : ahead last w' < ahead last w := by
  unfold ahead
  cases h with
  | asked hfault hroom hlast =>
    simp only [List.map_append, List.sum_append, List.map_cons, List.map_nil, List.sum_cons, List.sum_nil, eventsLeft]
    omega
  | @answered h hmem =>
    refine Nat.add_lt_add_left ?_ _
    rw [answer, List.map_map]
    refine List.sum_lt_sum _ _ (fun slot _ => ?_) ⟨(h, none), hmem, by simp [eventsLeft]⟩
    by_cases hslot : slot.1 = h
    · rcases slot with ⟨_, _ | r⟩ <;> simp_all [eventsLeft]
    · simp [hslot]
  | value hw => simp [hw, eventsLeft]
  | fault hw =>
    simp only [hw, List.map_cons, List.sum_cons, List.map_nil, List.sum_nil, eventsLeft]
    omega

/-- **No flight goes on forever.** -/
theorem Flight.length_le (h : Flight fetch first last events w) :
    events.length + ahead last w ≤ 3 * (last + 1 - first) := by
  induction h with
  | start => simp [ahead]
  | next _ hevent ih =>
    have := hevent.ahead_lt
    rw [List.length_append, List.length_singleton]
    omega

theorem isOver_iff : IsOver fetch last w ↔ w.flying = [] ∧ (w.fault = none → last < w.next) := by
  constructor
  · intro hover
    have hflying : w.flying = [] := by
      rcases hw : w.flying with _ | ⟨⟨h, _ | a | e⟩, rest⟩
      · rfl
      · exact absurd (.answered (hw ▸ List.mem_cons_self)) (hover (.answered h) _)
      · exact absurd (.fault hw) (hover (.handedOn h) _)
      · exact absurd (.value hw) (hover (.handedOn h) _)
    refine ⟨hflying, fun hfault => ?_⟩
    by_contra hlast
    exact hover (.asked w.next) _ (.asked hfault (hflying ▸ Nat.zero_lt_succ 7) (by omega))
  · rintro ⟨hflying, hlast⟩ event w' h
    cases h with
    | asked hfault _ hle => exact absurd hle (Nat.not_le_of_lt (hlast hfault))
    | answered hmem => simp [hflying] at hmem
    | value hw => simp [hflying] at hw
    | fault hw => simp [hflying] at hw

/-- **A flight that is over has come to the verdict.** -/
theorem Orderly.verdict (ho : Orderly fetch first last w) (hover : IsOver fetch last w) :
    Verdict fetch first last w.outcome := by
  obtain ⟨hflying, hlast⟩ := isOver_iff.mp hover
  have hwithin := ho.within
  unfold outcome
  rcases hfault : w.fault with _ | e
  · have hnext := ho.next hfault
    have hpast := hlast hfault
    rw [hflying, List.length_nil] at hnext
    have hlength : w.values.length = last + 1 - first := by omega
    exact .values (hlength ▸ ho.values)
  · obtain ⟨-, he, hlt⟩ := ho.fault e hfault
    exact .fault (by omega) (by omega) (fun g h₁ h₂ => ho.values.exists_ok h₁ h₂) he

/-! ## The window is a flight -/

theorem fill_flight : ∀ (n : Nat) {w : Window α} {events : List Event}, Flight fetch first last events w →
    w.fault = none → ∃ events', Flight fetch first last events' (fill last n w)
  | 0, w, events, h, _ => ⟨events, h⟩
  | n + 1, w, events, h, hfault => by
    unfold fill
    split
    · rename_i hroom
      exact fill_flight n (h.next (.asked hfault hroom.1 hroom.2)) hfault
    · exact ⟨events, h⟩

theorem handOn_flight : ∀ (n : Nat) {w : Window α} {events : List Event}, Flight fetch first last events w →
    ∃ events', Flight fetch first last events' (handOn last n w)
  | 0, w, events, h => ⟨events, h⟩
  | n + 1, w, events, h => by
    unfold handOn
    split
    · rename_i hw
      obtain ⟨events', h'⟩ := fill_flight width (h.next (.value hw)) (h.orderly.front hw).1
      exact handOn_flight n h'
    · rename_i hw
      exact ⟨_, h.next (.fault hw)⟩
    · exact ⟨events, h⟩

theorem mem_unanswered {h : Nat} : h ∈ w.unanswered ↔ (h, none) ∈ w.flying := by
  simp [unanswered, Option.isNone_iff_eq_none]

/-- The request that is answered is on its way. -/
theorem step_cases (fetch : Nat → Except Fault α) (last pick : Nat) (w : Window α) :
    (w.unanswered = [] ∧ w.step fetch last pick = w) ∨
      ∃ h ∈ w.unanswered, w.step fetch last pick = handOn last width (w.answer fetch h) := by
  unfold step
  split
  · rename_i hnone
    exact .inl ⟨hnone, rfl⟩
  · rename_i h rest hsome
    refine .inr ⟨_, ?_, rfl⟩
    have hplace : pick % (rest.length + 1) < (h :: rest).length := Nat.mod_lt _ (Nat.succ_pos _)
    rw [hsome, List.getD_eq_getElem _ _ hplace]
    exact List.getElem_mem _

theorem step_flight (h : Flight fetch first last events w) (pick : Nat) :
    ∃ events', Flight fetch first last events' (w.step fetch last pick) := by
  rcases step_cases fetch last pick w with ⟨-, hstep⟩ | ⟨height, hheight, hstep⟩ <;> rw [hstep]
  · exact ⟨events, h⟩
  · exact handOn_flight width (h.next (.answered (mem_unanswered.mp hheight)))

/-- **The window that answers the requests as `picks` says** is a flight. -/
theorem after_flight (fetch : Nat → Except Fault α) (first last : Nat) (picks : Nat → Nat) :
    ∀ n, ∃ events, Flight fetch first last events (after fetch first last picks n)
  | 0 => fill_flight width .start rfl
  | n + 1 => by
    obtain ⟨events, h⟩ := after_flight fetch first last picks n
    exact step_flight h (picks n)

/-! ### It comes to its end -/

/-- The requests that are to be answered yet. -/
def pending (last : Nat) (w : Window α) : Nat := last + 1 - w.next + w.unanswered.length

/-- The window has asked for all it may, and handed on all it can. -/
structure Settled (last : Nat) (w : Window α) : Prop where
  full : w.fault = none → width ≤ w.flying.length ∨ last < w.next
  front : ∀ h r rest, w.flying ≠ (h, some r) :: rest

theorem pending_fill : ∀ (n : Nat) (w : Window α), pending last (fill last n w) = pending last w
  | 0, _ => rfl
  | n + 1, w => by
    unfold fill
    split
    · rw [pending_fill n, pending, pending, unanswered, unanswered]
      simp only [List.filter_append, List.map_append, List.length_append, Option.isNone_none, List.filter_cons_of_pos,
        List.filter_nil, List.map_cons, List.map_nil, List.length_singleton]
      omega
    · rfl

theorem fill_full : ∀ (n : Nat) (w : Window α), width ≤ w.flying.length + n →
    width ≤ (fill last n w).flying.length ∨ last < (fill last n w).next
  | 0, _, h => .inl h
  | n + 1, w, h => by
    unfold fill
    split
    · refine fill_full n _ ?_
      simp only [List.length_append, List.length_singleton]
      omega
    · omega

/-- The answers that have come and were not handed on. -/
def answered (w : Window α) : Nat := w.flying.countP fun slot => slot.2.isSome

theorem answered_fill : ∀ (n : Nat) (w : Window α), (fill last n w).answered = w.answered
  | 0, _ => rfl
  | n + 1, w => by
    unfold fill
    split
    · rw [answered_fill n, answered, answered]
      simp
    · rfl

/-- **Handing on** as often as there are answers. -/
theorem handOn_settled : ∀ (n : Nat) {w : Window α}, (w.fault = none → width ≤ w.flying.length ∨ last < w.next) →
    w.answered ≤ n → Settled last (handOn last n w)
  | 0, w, hfull, hn => by
    refine ⟨hfull, fun h r rest (hw : w.flying = (h, some r) :: rest) => ?_⟩
    rw [answered, hw, List.countP_cons_of_pos (by rfl)] at hn
    exact Nat.not_succ_le_zero _ hn
  | n + 1, w, hfull, hn => by
    unfold handOn
    split
    · rename_i rest hw
      refine handOn_settled n (fun _ => fill_full width _ (Nat.le_add_left _ _)) ?_
      rw [answered, hw, List.countP_cons_of_pos (by rfl)] at hn
      rw [answered_fill, answered]
      exact Nat.le_of_succ_le_succ hn
    · exact ⟨nofun, nofun⟩
    · rename_i hvalue hfault
      refine ⟨hfull, fun h r rest hw => ?_⟩
      rcases r with e | a
      · exact hfault h e rest hw
      · exact hvalue h a rest hw

theorem pending_handOn_le : ∀ (n : Nat) (w : Window α), pending last (handOn last n w) ≤ pending last w
  | 0, _ => Nat.le_refl _
  | n + 1, w => by
    unfold handOn
    split
    · rename_i hw
      refine Nat.le_trans (pending_handOn_le n _) ?_
      rw [pending_fill, pending, pending, unanswered, unanswered, hw]
      exact Nat.le_refl _
    · exact Nat.add_le_add_left (Nat.zero_le _) _
    · exact Nat.le_refl _

/-- An answer takes its height off the unanswered ones. -/
theorem unanswered_answer (fetch : Nat → Except Fault α) (h : Nat) (w : Window α) :
    (w.answer fetch h).unanswered = w.unanswered.filter (· ≠ h) := by
  unfold unanswered answer
  induction w.flying with
  | nil => rfl
  | cons slot rest ih =>
    rcases slot with ⟨g, _ | r⟩ <;> by_cases hg : g = h <;> simp_all

theorem pending_answer_lt {h : Nat} (hh : h ∈ w.unanswered) : pending last (w.answer fetch h) < pending last w := by
  unfold pending
  rw [unanswered_answer]
  refine Nat.add_lt_add_left (List.length_filter_lt_length_iff_exists.mpr ⟨h, hh, ?_⟩) _
  simp

/-- When all requests are answered it is over. -/
theorem Settled.isOver (hs : Settled last w) (h : w.unanswered = []) : IsOver fetch last w := by
  have hflying : w.flying = [] := by
    rcases hw : w.flying with _ | ⟨⟨g, _ | r⟩, rest⟩
    · rfl
    · have hg : g ∈ w.unanswered := mem_unanswered.mpr (hw ▸ List.mem_cons_self)
      simp [h] at hg
    · exact absurd hw (hs.front g r rest)
  refine isOver_iff.mpr ⟨hflying, fun hfault => (hs.full hfault).resolve_left ?_⟩
  rw [hflying]
  exact Nat.not_succ_le_zero 7

/-- **One more answer**, unless it is over. -/
theorem Settled.step (hs : Settled last w) (ho : Orderly fetch first last w) (pick : Nat) :
    Settled last (w.step fetch last pick) ∧
      (IsOver fetch last (w.step fetch last pick) ∨ pending last (w.step fetch last pick) < pending last w) := by
  rcases step_cases fetch last pick w with ⟨hnone, hstep⟩ | ⟨h, hh, hstep⟩ <;> rw [hstep]
  · exact ⟨hs, .inl (hs.isOver hnone)⟩
  · have hanswered : (w.answer fetch h).answered ≤ width :=
      List.countP_le_length.trans (length_answer fetch h w ▸ ho.room)
    refine ⟨handOn_settled width (fun hfault => ?_) hanswered, .inr ?_⟩
    · rw [length_answer]
      exact hs.full hfault
    · exact Nat.lt_of_le_of_lt (pending_handOn_le width _) (pending_answer_lt hh)

/-- What is over stays as it is. -/
theorem IsOver.step (hover : IsOver fetch last w) (pick : Nat) : w.step fetch last pick = w := by
  rcases step_cases fetch last pick w with ⟨-, hstep⟩ | ⟨h, hh, -⟩
  · exact hstep
  · simp [unanswered, (isOver_iff.mp hover).1] at hh

theorem after_settled (fetch : Nat → Except Fault α) (first last : Nat) (picks : Nat → Nat) :
    ∀ n, Settled last (after fetch first last picks n) ∧ (IsOver fetch last (after fetch first last picks n) ∨
      pending last (after fetch first last picks n) + n ≤ last + 1 - first)
  | 0 => by
    refine ⟨handOn_settled 0 (fun _ => fill_full width _ (Nat.le_add_left _ _)) ?_, .inr ?_⟩
    · rw [start, answered_fill]
      exact Nat.le_refl _
    · rw [after, start, pending_fill]
      exact Nat.le_refl _
  | n + 1 => by
    obtain ⟨hs, hn⟩ := after_settled fetch first last picks n
    obtain ⟨events, hflight⟩ := after_flight fetch first last picks n
    obtain ⟨hs', hless⟩ := hs.step hflight.orderly (picks n)
    refine ⟨hs', ?_⟩
    rcases hn with hover | hn
    · rw [after, hover.step]
      exact .inl hover
    · refine hless.imp_right fun hless => ?_
      rw [after]
      omega

/-- **When the window has answered as often as there are heights**, nothing more can happen. -/
theorem after_isOver (fetch : Nat → Except Fault α) (first last : Nat) (picks : Nat → Nat) :
    IsOver fetch last (after fetch first last picks (last + 1 - first)) := by
  obtain ⟨hs, hover | hn⟩ := after_settled fetch first last picks (last + 1 - first)
  · exact hover
  · refine hs.isOver (List.length_eq_zero_iff.mp ?_)
    rw [pending] at hn
    omega

end Window

open Window

/-! ## All orders give one answer -/

/-- **The order of the answers does not matter.** Asking for one height after the other gives the values of the range in
order just if no height fails, and else the fault of the lowest height that fails. The requests in flight give the same,
in whatever order they are answered: every flight ends, and ends so. At any time at most eight requests are on their
way, and when a height fails, none that is more than seven above it was asked for. -/
theorem flights_agree (fetch : Nat → Except Fault α) (first last : Nat) :
    ((∃ l, gather first last fetch = .ok l) ↔ ∀ h, first ≤ h → h ≤ last → ∃ a, fetch h = .ok a) ∧
    (∀ l, gather first last fetch = .ok l →
      List.Forall₂ (fun h a => fetch h = .ok a) (List.range' first (last + 1 - first)) l) ∧
    (∀ e, gather first last fetch = .error e → ∃ h, first ≤ h ∧ h ≤ last ∧ fetch h = .error e ∧
      ∀ g, first ≤ g → g < h → ∃ a, fetch g = .ok a) ∧
    (∀ picks, Window.gather first last picks fetch = gather first last fetch) ∧
    ∀ events w, Flight fetch first last events w →
      events.length ≤ 3 * (last + 1 - first) ∧
      (IsOver fetch last w → w.outcome = gather first last fetch) ∧
      w.flying.length ≤ 8 ∧
      ∀ h e, first ≤ h → fetch h = .error e → ∀ g, .asked g ∈ events → g ≤ h + 7 := by
  have hverdict := gather_verdict first last fetch
  refine ⟨exists_gather_eq_ok, fun l => values_of_gather, fun e => lowest_of_gather, fun picks => ?_,
    fun events w h => ⟨?_, ?_, ?_, ?_⟩⟩
  · obtain ⟨events, h⟩ := after_flight fetch first last picks (last + 1 - first)
    exact (h.orderly.verdict (after_isOver fetch first last picks)).unique hverdict
  · exact Nat.le_of_add_right_le h.length_le
  · exact fun hover => (h.orderly.verdict hover).unique hverdict
  · exact h.orderly.room
  · intro height e hfirst he g hg
    have hlt := h.asked_lt hg
    have hnext := h.orderly.next_le hfirst he
    exact Nat.le_of_lt_succ (Nat.lt_of_lt_of_le hlt hnext)

/-! ### The highest request is answered first -/

/-- A node that fails at two heights. -/
def fickle (h : Nat) : Except Fault Nat :=
  if h = 2 ∨ h = 5 then .error (.rpc s!"height {h} unavailable") else .ok (h * 10)

/-- **The fault of the lower height counts**, although that of the higher one comes first; and the tenth height is not
asked for. -/
theorem fickle_agrees : Window.gather 1 10 (fun _ => 7) fickle = .error (.rpc "height 2 unavailable") ∧
    Window.gather 3 4 (fun _ => 7) fickle = .ok [30, 40] ∧
    ∃ events w, Flight fickle 1 10 events w ∧ IsOver fickle 10 w ∧ w.outcome = .error (.rpc "height 2 unavailable") ∧
      w.flying.length ≤ 8 ∧ .asked 10 ∉ events := by
  obtain ⟨-, -, -, hten, hflights⟩ := flights_agree fickle 1 10
  obtain ⟨-, -, -, htwo, -⟩ := flights_agree fickle 3 4
  have hfault : gather 1 10 fickle = .error (.rpc "height 2 unavailable") := rfl
  have hover := after_isOver fickle 1 10 fun _ => 7
  obtain ⟨events, h⟩ := after_flight fickle 1 10 (fun _ => 7) 10
  obtain ⟨-, hend, hroom, hasked⟩ := hflights _ _ h
  have hverdict := (hend hover).trans hfault
  refine ⟨(hten _).trans hfault, (htwo _).trans rfl, events, _, h, hover, hverdict, hroom, fun hmem => ?_⟩
  have := hasked 2 (.rpc "height 2 unavailable") (by decide) rfl 10 hmem
  omega

end StakeTrail.Feed
