import Mathlib
import StakeTrail.Proofs.Stake.Persisted
import StakeTrail.Proofs.Stake.Series

/-!
# The running total

What a ledger makes of deltas in ascending order, said without its loop. `upTo` is the total up to a height, `obstacle?`
why a height cannot be applied, and `runs` are the heights of the deltas in maximal runs of heights that share a second.

* Applying by block stops at the lowest height with an obstacle, and otherwise leaves one row a run, which `Closes` it
  (`applyByBlockOnto_outcome`).
* Applying without blocks gives the same rows without their blocks, or the same fault (`applyOnto_eq`).
* Deltas may be applied in parts, and the points that are written come out the same (`apply_append`).

**The running total is exact** (`applied_exactly`) puts the three together.
-/

namespace StakeTrail.Stake

variable {seed : Int} {deltas done rest : Deltas} {times : Times} {h k : Nat} {d : Int}

/-- The block time of a height. -/
def timeOf? (times : Times) (h : Nat) : Option Int := (Keyed.get? Prod.fst h times).map (·.2)

/-- **The total up to a height**: the seed and every change up to there. -/
def upTo (seed : Int) (deltas : Deltas) (h : Nat) : Int := seed + ((deltas.filter (·.1 ≤ h)).map (·.2)).sum

/-- Why a height cannot be applied: a missing time comes before a total that is no word. -/
def obstacle? (seed : Int) (deltas : Deltas) (times : Times) (h : Nat) : Option Fault :=
  if timeOf? times h = none then some (.missingBlockTime h)
  else if Word.fits (upTo seed deltas h) then none
  else some (.decode (.totalOverflow h))

/-- Whether two heights share a block time. -/
def sameSecond (times : Times) (h k : Nat) : Bool := decide (timeOf? times h = timeOf? times k)

/-- **The maximal runs** of heights that follow each other among the deltas and share a block time. -/
def runs (deltas : Deltas) (times : Times) : List (List Nat) := deltas.heights.splitBy (sameSecond times)

/-- The row that a run leaves: it is that of its last height, with the total up to there. -/
structure Closes (seed : Int) (deltas : Deltas) (times : Times) (run : List Nat) (row : HistoryPoint) : Prop where
  block : run.getLast? = some row.block
  time : timeOf? times row.block = some row.time
  amount : row.amount = upTo seed deltas row.block

/-! ## One height -/

/-- The total up to the height that comes next. -/
theorem upTo_next (hs : Ascends (done ++ (h, d) :: rest)) :
    upTo seed (done ++ (h, d) :: rest) h = seed + (done.map (·.2)).sum + d := by
  obtain ⟨-, hrest, hdone⟩ := List.pairwise_append.mp hs
  have hbefore : done.filter (·.1 ≤ h) = done :=
    List.filter_eq_self.mpr fun p hp => decide_eq_true (hdone p hp (h, d) List.mem_cons_self).le
  have hafter : rest.filter (·.1 ≤ h) = [] :=
    List.filter_eq_nil_iff.mpr fun p hp => by simpa using (List.pairwise_cons.mp hrest).1 p hp
  rw [upTo, List.filter_append, List.filter_cons_of_pos (by simp), hbefore, hafter]
  simp [add_assoc]

/-- **A step of the ledger** fails with the obstacle of its height, or has none and leads to the total up to there. -/
theorem step_cases (times : Times) {ledger : Ledger} (hu : upTo seed deltas h = ledger.total + d) :
    (∃ e, obstacle? seed deltas times h = some e ∧ ledger.step times h d = .error e) ∨
    ∃ time, obstacle? seed deltas times h = none ∧ timeOf? times h = some time ∧
      ledger.step times h d = .ok (time, ⟨upTo seed deltas h⟩) := by
  unfold obstacle? Ledger.step timeOf? Word.add?
  rcases Keyed.get? Prod.fst h times with _ | ⟨k, time⟩
  · exact .inl ⟨_, rfl, rfl⟩
  · by_cases hfits : Word.fits (upTo seed deltas h) = true
    · refine .inr ⟨time, ?_, rfl, ?_⟩
      · simp [hfits]
      · simp only [← hu, hfits, if_true]
    · refine .inl ⟨.decode (.totalOverflow h), ?_, ?_⟩
      · simp [hfits]
      · simp only [← hu, hfits, Bool.false_eq_true, if_false]

/-! ## Runs -/

/-- One more height at the end of a list that is cut into runs. -/
theorem splitBy_concat {α : Type} {r : α → α → Bool} {l run : List α} {front : List (List α)} {a b : α}
    (hl : l.splitBy r = front ++ [run]) (hb : run.getLast? = some b) :
    (l ++ [a]).splitBy r = if r b a then front ++ [run ++ [a]] else front ++ [run] ++ [[a]] := by
  have hlast : l.getLast? = some b := by
    have hjoin := List.flatten_splitBy r l
    rw [hl, List.flatten_append, List.flatten_singleton] at hjoin
    rw [← hjoin, List.getLast?_append, hb]
    rfl
  split
  · rename_i hab
    obtain ⟨hjoin, hnil, hruns, hcuts⟩ := List.splitBy_eq_iff.mp hl
    have hne : run ≠ [] := by
      rintro rfl
      cases hb
    refine List.splitBy_eq_iff.mpr ⟨by simp [hjoin], by simpa [hne] using hnil, fun m hm => ?_, ?_⟩
    · rcases List.mem_append.mp hm with hm | hm
      · exact hruns m (List.mem_append_left _ hm)
      · rw [List.mem_singleton.mp hm]
        refine List.isChain_append.mpr ⟨hruns run (by simp), List.isChain_singleton _, fun x hx y hy => ?_⟩
        rw [hb] at hx
        cases hx
        cases hy
        exact hab
    · rw [List.isChain_append] at hcuts ⊢
      refine ⟨hcuts.1, List.isChain_singleton _, fun x hx y hy => ?_⟩
      cases hy
      obtain ⟨hx', hrun, hcut⟩ := hcuts.2.2 x hx run rfl
      exact ⟨hx', by simp, by rwa [List.head_append_of_ne_nil hrun]⟩
  · rename_i hab
    have hcut := List.splitBy_append_cons (r := r) (l := l) (a := a) [] fun x hx => by
      rw [hlast] at hx
      cases hx
      simpa using hab
    rw [hcut, hl]
    rfl

theorem forall₂_concat {α β : Type} {R : α → β → Prop} : ∀ {l : List α} {a : α} {m : List β},
    List.Forall₂ R (l ++ [a]) m → ∃ front b, m = front ++ [b] ∧ List.Forall₂ R l front ∧ R a b
  | [], _, _, .cons hab .nil => ⟨[], _, rfl, .nil, hab⟩
  | _ :: _, _, _, .cons hc h => by
    obtain ⟨front, b, rfl, hfront, hab⟩ := forall₂_concat h
    exact ⟨_ :: front, b, rfl, .cons hc hfront, hab⟩

/-- **One more height**: the row that is pushed closes the last run, in place of the row that closed it before when the
height belongs to the same run. -/
theorem runs_push {rows : List HistoryPoint} (row : HistoryPoint)
    (hrows : List.Forall₂ (Closes seed deltas times) (runs done times) rows)
    (htime : timeOf? times row.block = some row.time) (hamount : row.amount = upTo seed deltas row.block) (d : Int) :
    List.Forall₂ (Closes seed deltas times) (runs (done ++ [(row.block, d)]) times) (Ledger.pushHistory row rows) := by
  have hheights : Deltas.heights (done ++ [(row.block, d)]) = done.heights ++ [row.block] := List.map_append
  unfold runs at hrows ⊢
  rw [hheights]
  unfold Ledger.pushHistory
  rcases List.eq_nil_or_concat' (done.heights.splitBy (sameSecond times)) with hnil | ⟨front, run, hl⟩
  · rw [hnil] at hrows
    cases hrows
    rw [List.splitBy_eq_nil.mp hnil]
    exact .cons ⟨rfl, htime, hamount⟩ .nil
  · rw [hl] at hrows
    obtain ⟨front', last, rfl, hfront, hlast⟩ := forall₂_concat hrows
    have hsame : sameSecond times last.block row.block = true ↔ last.time = row.time := by
      rw [sameSecond, hlast.time, htime, decide_eq_true_eq, Option.some.injEq]
    rw [splitBy_concat hl hlast.block, List.getLast?_concat]
    dsimp only
    by_cases heq : last.time = row.time
    · rw [if_pos (hsame.mpr heq), if_pos heq, List.dropLast_concat]
      exact List.rel_append hfront (.cons ⟨List.getLast?_concat .., htime, hamount⟩ .nil)
    · rw [if_neg (hsame.not.mpr heq), if_neg heq]
      exact List.rel_append hrows (.cons ⟨rfl, htime, hamount⟩ .nil)

/-- Rows that close runs come in the order of the heights. -/
theorem blocks_sublist {cuts : List (List Nat)} {rows : List HistoryPoint}
    (hrows : List.Forall₂ (Closes seed deltas times) cuts rows) :
    (rows.map HistoryPoint.block).Sublist cuts.flatten := by
  induction hrows with
  | nil => exact .slnil
  | cons hrow _ ih =>
    have hmem := List.mem_of_getLast? hrow.block
    exact (List.singleton_sublist.mpr hmem).append ih

/-- Neighbouring rows do not share a second. -/
theorem pushHistory_chain {rows : List HistoryPoint} (h : rows.IsChain fun r s => r.time ≠ s.time)
    (row : HistoryPoint) : (Ledger.pushHistory row rows).IsChain fun r s => r.time ≠ s.time := by
  unfold Ledger.pushHistory
  rcases List.eq_nil_or_concat' rows with rfl | ⟨front, last, rfl⟩
  · exact List.isChain_singleton _
  · rw [List.getLast?_concat]
    dsimp only
    split
    · rename_i heq
      rw [List.dropLast_concat]
      obtain ⟨hfront, -, hcut⟩ := List.isChain_append.mp h
      refine List.isChain_append.mpr ⟨hfront, List.isChain_singleton _, fun r hr s hs => ?_⟩
      cases hs
      exact heq ▸ hcut r hr last rfl
    · rename_i hne
      refine List.isChain_append.mpr ⟨h, List.isChain_singleton _, fun r hr s hs => ?_⟩
      rw [List.getLast?_concat] at hr
      cases hr
      cases hs
      exact hne

/-! ## All heights -/

/-- **Applying by block** stops at the lowest height with an obstacle; without one it adds up all changes and leaves the
rows that close the runs. -/
theorem applyByBlockOnto_outcome (hs : Ascends deltas) : ∀ {rest done : Deltas} {rows : List HistoryPoint}
    {ledger : Ledger}, deltas = done ++ rest → ledger.total = seed + (done.map (·.2)).sum →
    List.Forall₂ (Closes seed deltas times) (runs done times) rows → (rows.IsChain fun r s => r.time ≠ s.time) →
    (∃ h ∈ rest.heights, ∃ e, obstacle? seed deltas times h = some e ∧
      (∀ k ∈ rest.heights, k < h → obstacle? seed deltas times k = none) ∧
      Ledger.applyByBlockOnto times rows ledger rest = .error e) ∨
    ∃ rows', (∀ h ∈ rest.heights, obstacle? seed deltas times h = none) ∧
      List.Forall₂ (Closes seed deltas times) (runs deltas times) rows' ∧
      (rows'.IsChain fun r s => r.time ≠ s.time) ∧
      Ledger.applyByBlockOnto times rows ledger rest = .ok (⟨seed + (deltas.map (·.2)).sum⟩, rows')
  | [], done, rows, ledger, hdeltas, hl, hrows, hchain => by
    rw [List.append_nil] at hdeltas
    subst hdeltas
    refine .inr ⟨rows, fun _ h => absurd h List.not_mem_nil, hrows, hchain, ?_⟩
    rw [Ledger.applyByBlockOnto, ← hl]
  | (h, d) :: rest, done, rows, ledger, hdeltas, hl, hrows, hchain => by
    have hu : upTo seed deltas h = ledger.total + d := by
      rw [hdeltas] at hs ⊢
      rw [upTo_next hs, hl]
    have hlowest : ∀ k ∈ Deltas.heights rest, h < k := by
      intro k hk
      obtain ⟨p, hp, rfl⟩ := List.mem_map.mp hk
      rw [hdeltas] at hs
      exact (List.pairwise_cons.mp (List.pairwise_append.mp hs).2.1).1 p hp
    have hheights : ∀ k, k ∈ Deltas.heights ((h, d) :: rest) ↔ k = h ∨ k ∈ Deltas.heights rest := fun k => List.mem_cons
    rw [Ledger.applyByBlockOnto]
    rcases step_cases times hu with ⟨e, hobstacle, hstep⟩ | ⟨time, hfree, htime, hstep⟩ <;> rw [hstep]
    · refine .inl ⟨h, (hheights h).mpr (.inl rfl), e, hobstacle, fun k hk hlt => ?_, rfl⟩
      rcases (hheights k).mp hk with rfl | hk
      · exact absurd hlt (Nat.lt_irrefl k)
      · exact absurd (hlowest k hk) (Nat.lt_asymm hlt)
    · have hnext : deltas = (done ++ [(h, d)]) ++ rest := by rw [hdeltas, List.append_assoc, List.singleton_append]
      have htotal : (⟨upTo seed deltas h⟩ : Ledger).total = seed + ((done ++ [(h, d)]).map (·.2)).sum := by
        rw [hu, hl]
        simp [add_assoc]
      rcases applyByBlockOnto_outcome hs hnext htotal
          (runs_push ⟨h, time, upTo seed deltas h⟩ hrows htime rfl d) (pushHistory_chain hchain _) with
        ⟨k, hk, e, hobstacle, hbelow, hrun⟩ | ⟨rows', hnone, hclosed, hchain', hrun⟩
      · refine .inl ⟨k, (hheights k).mpr (.inr hk), e, hobstacle, fun j hj hlt => ?_, hrun⟩
        rcases (hheights j).mp hj with rfl | hj
        · exact hfree
        · exact hbelow j hj hlt
      · refine .inr ⟨rows', fun k hk => ?_, hclosed, hchain', hrun⟩
        rcases (hheights k).mp hk with rfl | hk
        · exact hfree
        · exact hnone k hk

/-! ## Without blocks -/

/-- A row of the history without its block. -/
def HistoryPoint.point (row : HistoryPoint) : Point := ⟨row.time, row.amount⟩

theorem pushPoint_map (row : HistoryPoint) (rows : List HistoryPoint) :
    Ledger.pushPoint row.point (rows.map HistoryPoint.point) =
      (Ledger.pushHistory row rows).map HistoryPoint.point := by
  unfold Ledger.pushPoint Ledger.pushHistory
  rcases List.eq_nil_or_concat' rows with rfl | ⟨front, last, rfl⟩
  · rfl
  · simp only [List.map_append, List.map_singleton, List.getLast?_concat, List.dropLast_concat]
    by_cases h : last.time = row.time
    · simp [HistoryPoint.point, h]
    · simp [HistoryPoint.point, h]

/-- **Points are the rows without their blocks**, and faults are the same. -/
theorem applyOnto_eq : ∀ {deltas : Deltas} {ledger : Ledger} (rows : List HistoryPoint),
    Ledger.applyOnto times (rows.map HistoryPoint.point) ledger deltas =
      (Ledger.applyByBlockOnto times rows ledger deltas).map fun r => (r.1, r.2.map HistoryPoint.point)
  | [], _, _ => rfl
  | (h, d) :: rest, ledger, rows => by
    rw [Ledger.applyOnto, Ledger.applyByBlockOnto]
    rcases ledger.step times h d with e | ⟨time, next⟩
    · rfl
    · dsimp only
      rw [← applyOnto_eq, ← pushPoint_map]
      rfl

/-! ## In parts -/

/-- The points of a run, written into a table. -/
def upserted (table : List Point) (r : Ledger × List Point) : Ledger × List Point :=
  (r.1, Keyed.putAll Point.time r.2 table)

/-- Where the points begin does not matter once they are written. -/
theorem applyOnto_upserted {table table' : List Point} :
    ∀ {deltas : Deltas} {ledger : Ledger} {points points' : List Point},
    Keyed.putAll Point.time points table = Keyed.putAll Point.time points' table' →
    (Ledger.applyOnto times points ledger deltas).map (upserted table) =
      (Ledger.applyOnto times points' ledger deltas).map (upserted table')
  | [], ledger, points, points', h => by
    simp only [Ledger.applyOnto, Except.map, upserted, h]
  | (height, d) :: rest, ledger, points, points', h => by
    rw [Ledger.applyOnto, Ledger.applyOnto]
    rcases ledger.step times height d with e | ⟨time, next⟩
    · rfl
    · refine applyOnto_upserted ?_
      rw [ConsensusChain.putAll_pushPoint, ConsensusChain.putAll_pushPoint, h]

theorem applyOnto_append : ∀ {front back : Deltas} {ledger : Ledger} {points : List Point},
    Ledger.applyOnto times points ledger (front ++ back) =
      (Ledger.applyOnto times points ledger front).bind fun r => Ledger.applyOnto times r.2 r.1 back
  | [], _, _, _ => rfl
  | (h, d) :: rest, back, ledger, points => by
    rw [List.cons_append, Ledger.applyOnto, Ledger.applyOnto]
    rcases ledger.step times h d with e | ⟨time, next⟩
    · rfl
    · exact applyOnto_append

/-- **Deltas may be applied in parts**: with the points written into a table after each part, ledger, table and fault
are those of the whole. -/
theorem apply_append (ledger : Ledger) (front back : Deltas) (times : Times) (table : List Point) :
    (ledger.apply (front ++ back) times).map (upserted table) =
      (ledger.apply front times).bind fun r =>
        (r.1.apply back times).map (upserted (Keyed.putAll Point.time r.2 table)) := by
  unfold Ledger.apply
  rw [applyOnto_append]
  rcases Ledger.applyOnto times [] ledger front with e | ⟨next, points⟩
  · rfl
  · exact applyOnto_upserted rfl

/-- Deltas in ascending order are those up to a height, followed by those above it. -/
theorem Ascends.cut : ∀ {deltas : Deltas}, Ascends deltas → ∀ cut : Nat,
    deltas.filter (·.1 ≤ cut) ++ deltas.filter (cut < ·.1) = deltas
  | [], _, _ => rfl
  | (h, d) :: rest, hs, cut => by
    obtain ⟨hlowest, hrest⟩ := List.pairwise_cons.mp hs
    by_cases hle : h ≤ cut
    · rw [List.filter_cons_of_pos (by simpa using hle), List.filter_cons_of_neg (by simpa using hle), List.cons_append,
        Ascends.cut hrest cut]
    · have habove : ∀ p ∈ rest, cut < p.1 := fun p hp => by
        have := hlowest p hp
        omega
      have hbelow : rest.filter (·.1 ≤ cut) = [] :=
        List.filter_eq_nil_iff.mpr fun p hp => by simpa using habove p hp
      rw [List.filter_cons_of_neg (by simpa using hle), hbelow, List.nil_append]
      refine List.filter_eq_self.mpr fun p hp => decide_eq_true ?_
      rcases List.mem_cons.mp hp with rfl | hp
      · exact not_le.mp hle
      · exact habove p hp

/-! ## The whole -/

/-- Of two lowest heights there is only one. -/
theorem lowest_unique {heights : List Nat} {f : Nat → Option Fault} {h k : Nat} {e e' : Fault} (hh : h ∈ heights)
    (hk : k ∈ heights) (he : f h = some e) (he' : f k = some e') (hlow : ∀ j ∈ heights, j < h → f j = none)
    (hlow' : ∀ j ∈ heights, j < k → f j = none) : e = e' := by
  rcases Nat.lt_trichotomy h k with hlt | rfl | hlt
  · rw [hlow' h hh hlt] at he
    cases he
  · exact Option.some.inj (he.symm.trans he')
  · rw [hlow k hk hlt] at he'
    cases he'

theorem obstacle?_eq_none : obstacle? seed deltas times h = none ↔
    (∃ time, timeOf? times h = some time) ∧ Word.fits (upTo seed deltas h) = true := by
  unfold obstacle?
  rcases timeOf? times h with _ | time <;> simp

/-- **The running total is exact**, whatever the seed, the times and the deltas in ascending order of height.

* Applying by block fails exactly with the obstacle of the lowest height that has one, and succeeds exactly when every
  height has a time and a total that is a word.
* When it succeeds, the new total is the seed and all changes, and each maximal run of heights that share a second
  leaves one row, with the last height of the run and the total up to there. Rows ascend, and neighbours differ in
  their seconds.
* Applying without blocks ends with the same fault, or the same ledger and the same rows without their blocks.
* Applying the changes up to a height and then those above it ends with the same fault, or the same ledger and, written
  over points of their second, the same points in any table. -/
theorem applied_exactly (hs : Ascends deltas) (seed : Int) (times : Times) :
    (∀ e, Ledger.applyByBlock ⟨seed⟩ deltas times = .error e ↔
      ∃ h ∈ deltas.heights, obstacle? seed deltas times h = some e ∧
        ∀ k ∈ deltas.heights, k < h → obstacle? seed deltas times k = none) ∧
    ((∃ next rows, Ledger.applyByBlock ⟨seed⟩ deltas times = .ok (next, rows)) ↔
      ∀ h ∈ deltas.heights, (∃ time, timeOf? times h = some time) ∧ Word.fits (upTo seed deltas h) = true) ∧
    (∀ next rows, Ledger.applyByBlock ⟨seed⟩ deltas times = .ok (next, rows) →
      next.total = seed + (deltas.map (·.2)).sum ∧
      List.Forall₂ (Closes seed deltas times) (runs deltas times) rows ∧
      (rows.Pairwise fun r s => r.block < s.block) ∧ rows.IsChain fun r s => r.time ≠ s.time) ∧
    Ledger.apply ⟨seed⟩ deltas times =
      (Ledger.applyByBlock ⟨seed⟩ deltas times).map (fun r => (r.1, r.2.map HistoryPoint.point)) ∧
    ∀ (cut : Nat) (table : List Point),
      (Ledger.apply ⟨seed⟩ deltas times).map (upserted table) =
        (Ledger.apply ⟨seed⟩ (deltas.filter (·.1 ≤ cut)) times).bind fun r =>
          (r.1.apply (deltas.filter (cut < ·.1)) times).map (upserted (Keyed.putAll Point.time r.2 table)) := by
  have hwhole : ∀ cut table, (Ledger.apply ⟨seed⟩ deltas times).map (upserted table) =
      (Ledger.apply ⟨seed⟩ (deltas.filter (·.1 ≤ cut)) times).bind fun r =>
        (r.1.apply (deltas.filter (cut < ·.1)) times).map (upserted (Keyed.putAll Point.time r.2 table)) := by
    intro cut table
    rw [← apply_append, hs.cut cut]
  have hstart : ((⟨seed⟩ : Ledger)).total = seed + ((([] : Deltas)).map (·.2)).sum := (add_zero seed).symm
  have hfree : (∀ h ∈ deltas.heights, obstacle? seed deltas times h = none) ↔
      ∀ h ∈ deltas.heights, (∃ time, timeOf? times h = some time) ∧ Word.fits (upTo seed deltas h) = true :=
    forall₂_congr fun _ _ => obstacle?_eq_none
  have hruns : List.Forall₂ (Closes seed deltas times) (runs [] times) [] := .nil
  rw [← hfree]
  unfold Ledger.applyByBlock
  rcases applyByBlockOnto_outcome hs (List.nil_append deltas).symm hstart hruns .nil with
    ⟨h, hh, e, hobstacle, hlow, hrun⟩ | ⟨rows, hnone, hclosed, hchain, hrun⟩ <;> rw [hrun]
  · refine ⟨fun e' => ⟨fun he => ?_, fun ⟨k, hk, hobstacle', hlow'⟩ => ?_⟩, ⟨fun ⟨_, _, hok⟩ => ?_, fun hnone => ?_⟩,
      fun _ _ hok => ?_, ?_, hwhole⟩
    · cases he
      exact ⟨h, hh, hobstacle, hlow⟩
    · rw [lowest_unique hh hk hobstacle hobstacle' hlow hlow']
    · cases hok
    · rw [hnone h hh] at hobstacle
      cases hobstacle
    · cases hok
    · exact (applyOnto_eq []).trans (by rw [hrun])
  · refine ⟨fun e' => ⟨fun he => ?_, fun ⟨k, hk, hobstacle', _⟩ => ?_⟩, ⟨fun _ => hnone, fun _ => ⟨_, _, rfl⟩⟩,
      fun next rows' hok => ?_, ?_, hwhole⟩
    · cases he
    · rw [hnone k hk] at hobstacle'
      cases hobstacle'
    · cases hok
      refine ⟨rfl, hclosed, ?_, hchain⟩
      have hsub := blocks_sublist hclosed
      rw [runs, List.flatten_splitBy] at hsub
      have hascend : deltas.heights.Pairwise (· < ·) := List.pairwise_map.mpr hs
      exact List.pairwise_map.mp (hascend.sublist hsub)
    · exact (applyOnto_eq []).trans (by rw [hrun])

/-! ### Three heights in two seconds -/

/-- Changes at three heights. -/
def sampleChanges : Deltas := [(10, 5), (11, 7), (13, -3)]

/-- Two of them share a second. -/
def sampleTimes : Times := [(10, 500), (11, 500), (13, 501)]

/-- The first two heights leave one row, and a seed that is too great is met at the second of them. -/
theorem sampleChanges_applied :
    Ledger.applyByBlock ⟨0⟩ sampleChanges sampleTimes = .ok (⟨9⟩, [⟨11, 500, 12⟩, ⟨13, 501, 9⟩]) ∧
    List.Forall₂ (Closes 0 sampleChanges sampleTimes) (runs sampleChanges sampleTimes) [⟨11, 500, 12⟩, ⟨13, 501, 9⟩] ∧
    Ledger.applyByBlock ⟨Word.greatest - 6⟩ sampleChanges sampleTimes = .error (.decode (.totalOverflow 11)) := by
  have hs : Ascends sampleChanges := by
    unfold Ascends sampleChanges
    decide
  have hok : Ledger.applyByBlock ⟨0⟩ sampleChanges sampleTimes = .ok (⟨9⟩, [⟨11, 500, 12⟩, ⟨13, 501, 9⟩]) := by rfl
  refine ⟨hok, ((applied_exactly hs 0 sampleTimes).2.2.1 _ _ hok).2.1, ?_⟩
  refine ((applied_exactly hs _ sampleTimes).1 _).mpr ⟨11, by decide, by decide, ?_⟩
  decide

end StakeTrail.Stake
