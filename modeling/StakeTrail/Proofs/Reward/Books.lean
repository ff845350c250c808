import StakeTrail.Proofs.Reward.Tally
import StakeTrail.Proofs.Store.Commits
import StakeTrail.Proofs.Text.Decimal

/-!
# The table of rewards

`Booked owed rows` says that the rows hold what `owed` says, and each address once: an amount is the decimal text of
the sum, however large it is. Adding a delta joins its share to what is owed (`addReward_ends`), so a commit of deltas
joins their tally (`rewards_ends`), or leaves the table as it was.
-/

namespace StakeTrail.Store

open StakeTrail.Action Database Reward

variable {t : Tables} {owed : String → Option Share}

/-- The row of an address that is owed something. -/
def rowOf (a : String) (s : Share) : RewardRow := ⟨a, toString s.1, s.2⟩

/-- **The rows hold what is owed**; heights are half words, as a query hands them back. -/
structure Booked (owed : String → Option Share) (rows : List RewardRow) : Prop where
  nodup : (rows.map RewardRow.address).Nodup
  row : ∀ a, Keyed.get? RewardRow.address a rows = (owed a).map (rowOf a)
  half : ∀ a s, owed a = some s → s.2 < 0x80000000

/-- What is owed after a delta. -/
def credited (owed : String → Option Share) (d : Delta) (a : String) : Option Share :=
  join (owed a) (if d.address = a then some d.share else none)

theorem Booked.put {rows : List RewardRow} (h : Booked owed rows) {d : Delta} (hd : d.height < 0x80000000) {s : Share}
    (hs : join (owed d.address) (some d.share) = some s) :
    Booked (credited owed d) (Keyed.put RewardRow.address (rowOf d.address s) rows) := by
  refine ⟨Keyed.nodup_put _ h.nodup, fun a => ?_, fun a s' hs' => ?_⟩
  · have hkey : (rowOf d.address s).address = d.address := rfl
    rw [Keyed.get?_put, hkey, credited]
    by_cases ha : d.address = a
    · subst ha
      rw [if_pos rfl, if_pos rfl, hs]
      rfl
    · rw [if_neg ha, if_neg ha, join_none, h.row]
  · unfold credited at hs'
    by_cases ha : d.address = a
    · rw [if_pos ha] at hs'
      rcases ho : owed a with _ | ⟨n, k⟩ <;> rw [ho] at hs' <;> cases hs'
      · exact hd
      · exact Nat.max_lt.mpr ⟨h.half a _ ho, hd⟩
    · rw [if_neg ha, join_none] at hs'
      exact h.half a s' hs'

/-- **Adding a delta joins its share to what is owed.** -/
theorem addReward_ends (h : Booked owed t.rewards) {d : Delta} (hd : d.height < 0x80000000) :
    Ends (Holds t) (addReward d)
      (fun _ db => ∃ rows, Booked (credited owed d) rows ∧ Holds { t with rewards := rows } db) fun _ => True := by
  unfold addReward
  refine ((query_ends _).fault fun _ _ => trivial).bind fun row => Ends.assuming fun hrow => ?_
  rw [h.row] at hrow
  subst hrow
  rcases ho : owed d.address with _ | ⟨n, k⟩
  · have hs : join (owed d.address) (some d.share) = some d.share := by rw [ho, none_join]
    simp only [Option.map_none, pure_bind]
    exact ((write_ends _).fault fun _ _ => trivial).post fun _ _ hdb => ⟨_, h.put hd hs, hdb⟩
  · have hs : join (owed d.address) (some d.share) = some (n + d.amount, max k d.height) := by rw [ho]; rfl
    have hread : readReward (toString n) = .ok n := by rw [readReward, Text.Numeral.large_toString]
    have hheight : Word.readBack k = k := Word.readBack_of_lt (h.half _ _ ho)
    simp only [Option.map_some, rowOf, hread, hheight, pure_bind]
    refine (Ends.ofExcept.fault fun _ _ => trivial).bind fun amount => Ends.assuming fun hamount => ?_
    cases hamount
    exact ((write_ends _).fault fun _ _ => trivial).post fun _ _ hdb => ⟨_, h.put hd hs, hdb⟩

/-- What is owed after some deltas. -/
theorem foldl_credited (owed : String → Option Share) (ds : List Delta) (a : String) :
    ds.foldl credited owed a = join (owed a) (tally Delta.address Delta.share a ds) := by
  induction ds generalizing owed with
  | nil => rw [tally, join_none]; rfl
  | cons d ds ih => rw [List.foldl_cons, ih, credited, join_assoc, tally]

/-- **A commit of deltas joins their tally to what is owed**, or leaves the tables as they were. -/
theorem rewards_ends (h : Booked owed t.rewards) {ds : List Delta} (hds : ∀ d ∈ ds, d.height < 0x80000000)
    (name : String) (height : Nat) :
    Ends (Holds t) (Commit.rewards name ds height)
      (fun _ db => ∃ rows, Booked (fun a => join (owed a) (tally Delta.address Delta.share a ds)) rows ∧
        Holds (Tables.advance name height { t with rewards := rows }) db) (Holds t) := by
  have hrows : Ends (Holds t) (each addReward ds) (fun _ db => ∃ rows, Booked (ds.foldl credited owed) rows ∧
      Holds { t with rewards := rows } db) fun _ => True := by
    refine (Ends.each (I := fun done db => ∃ rows, Booked (done.foldl credited owed) rows ∧
      Holds { t with rewards := rows } db) (fun done d hd => ?_) []).pre fun db hdb => ⟨t.rewards, h, hdb⟩
    rintro db ⟨rows, hrows, hdb⟩
    refine ((addReward_ends (t := { t with rewards := rows }) hrows (hds d hd)).post ?_) db hdb
    rintro _ _ ⟨rows', hrows', hdb'⟩
    refine ⟨rows', ?_, hdb'⟩
    rw [List.foldl_append]
    exact hrows'
  rw [show ds.foldl credited owed = _ from funext (foldl_credited owed ds)] at hrows
  refine (batch_ends (U := fun u => ∃ rows, Booked _ rows ∧ u = { t with rewards := rows }) hrows).post ?_
  rintro _ db ⟨u, ⟨rows, hrows, rfl⟩, hdb⟩
  exact ⟨rows, hrows, hdb⟩

end StakeTrail.Store
