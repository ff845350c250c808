/-!
# Rows with a key

A table is a list of rows in the order in which their keys first came; the key is a function of the row.
`Keyed.put` writes a row over the one with its key, in place, or at the end.

* `get?_put` says what a table holds after a write, and `put_put` that the later of two writes wins;
* `mem_of_get?` and `key_of_get?` say that what is found is there, under its key;
* `nodup_put` and `get?_iff` are about tables that hold each key once.
-/

namespace StakeTrail.Keyed

variable {α κ : Type} [DecidableEq κ]

/-- The row with a key. -/
def get? (key : α → κ) (k : κ) : List α → Option α
  | [] => none
  | a :: rest => if key a = k then some a else get? key k rest

/-- Writes a row over the one with its key, or at the end. -/
def put (key : α → κ) (a : α) : List α → List α
  | [] => [a]
  | b :: rest => if key b = key a then a :: rest else b :: put key a rest

/-- Writes rows in turn. -/
def putAll (key : α → κ) (rows table : List α) : List α := rows.foldl (fun t a => put key a t) table

/-- Writes a row unless its key is there. -/
def keep (key : α → κ) (a : α) (table : List α) : List α :=
  match get? key (key a) table with
  | some _ => table
  | none => table ++ [a]

/-- Removes the rows with a key. -/
def erase (key : α → κ) (k : κ) (table : List α) : List α := table.filter fun a => key a ≠ k

theorem get?_put (key : α → κ) (a : α) (k : κ) (table : List α) :
    get? key k (put key a table) = if key a = k then some a else get? key k table := by
  induction table with
  | nil => simp [put, get?]
  | cons b rest ih =>
    by_cases h : key b = key a <;> by_cases hk : key b = k <;> grind [put, get?]

theorem key_of_get? {key : α → κ} {k : κ} {table : List α} {a : α} (h : get? key k table = some a) :
    key a = k := by
  induction table with
  | nil => simp [get?] at h
  | cons b rest ih =>
    by_cases hb : key b = k
    · simp only [get?, hb, if_true, Option.some.injEq] at h
      exact h ▸ hb
    · simp only [get?, hb, if_false] at h
      exact ih h

theorem mem_of_get? {key : α → κ} {k : κ} {table : List α} {a : α} (h : get? key k table = some a) :
    a ∈ table := by
  induction table with
  | nil => simp [get?] at h
  | cons b rest ih =>
    by_cases hb : key b = k
    · simp only [get?, hb, if_true, Option.some.injEq] at h
      exact h ▸ List.mem_cons_self
    · simp only [get?, hb, if_false] at h
      exact List.mem_cons_of_mem _ (ih h)

theorem get?_eq_none {key : α → κ} {k : κ} {table : List α} : get? key k table = none ↔ ∀ a ∈ table, key a ≠ k := by
  induction table with
  | nil => simp [get?]
  | cons b rest ih =>
    by_cases hb : key b = k
    · simp [get?, hb]
    · simp [get?, hb, ih]

theorem get?_map {key : α → κ} {f : α → α} (hf : ∀ a, key (f a) = key a) (k : κ) (table : List α) :
    get? key k (table.map f) = (get? key k table).map f := by
  induction table with
  | nil => rfl
  | cons b rest ih =>
    by_cases hb : key b = k
    · simp [get?, hf, hb]
    · simp [get?, hf, hb, ih]

/-- A table in which every row stays as it is stays as it is. -/
theorem map_eq_self {f : α → α} {table : List α} (h : ∀ a ∈ table, f a = a) : table.map f = table :=
  (List.map_congr_left h).trans (List.map_id table)

/-- The later of two writes under one key wins. -/
theorem put_put {key : α → κ} {a b : α} (h : key a = key b) (table : List α) :
    put key b (put key a table) = put key b table := by
  induction table with
  | nil => simp [put, h]
  | cons c rest ih =>
    by_cases hc : key c = key a
    · simp [put, hc, h]
    · have hb : key c ≠ key b := h ▸ hc
      simp only [put, hc, hb, if_false, ih]

/-- A row under a new key comes last. -/
theorem put_of_none {key : α → κ} {a : α} {table : List α} (h : get? key (key a) table = none) :
    put key a table = table ++ [a] := by
  induction table with
  | nil => rfl
  | cons b rest ih =>
    by_cases hb : key b = key a
    · simp [get?, hb] at h
    · simp only [get?, hb, if_false] at h
      simp only [put, hb, if_false, ih h, List.cons_append]

theorem mem_put {key : α → κ} {a c : α} {table : List α} (h : c ∈ put key a table) : c = a ∨ c ∈ table := by
  induction table with
  | nil => exact .inl (List.mem_singleton.mp h)
  | cons b rest ih =>
    by_cases hb : key b = key a
    · simp only [put, hb, if_true, List.mem_cons] at h
      exact h.imp id (List.mem_cons_of_mem _)
    · simp only [put, hb, if_false, List.mem_cons] at h
      rcases h with rfl | h
      · exact .inr List.mem_cons_self
      · exact (ih h).imp id (List.mem_cons_of_mem _)

theorem nodup_put {key : α → κ} (a : α) {table : List α} (h : (table.map key).Nodup) :
    ((put key a table).map key).Nodup := by
  induction table with
  | nil => simp [put]
  | cons b rest ih =>
    obtain ⟨hb, hrest⟩ := List.nodup_cons.mp (List.map_cons ▸ h)
    by_cases hk : key b = key a
    · simpa [put, hk] using ⟨by simpa [hk] using hb, hrest⟩
    · simp only [put, hk, if_false, List.map_cons, List.nodup_cons]
      refine ⟨fun hmem => ?_, ih hrest⟩
      obtain ⟨c, hc, hcb⟩ := List.mem_map.mp hmem
      rcases mem_put hc with rfl | hc
      · exact hk hcb.symm
      · exact hb (List.mem_map.mpr ⟨c, hc, hcb⟩)

/-- In a table that holds each key once, what is there is found. -/
theorem get?_iff {key : α → κ} {k : κ} {table : List α} (h : (table.map key).Nodup) {a : α} :
    get? key k table = some a ↔ a ∈ table ∧ key a = k := by
  refine ⟨fun ha => ⟨mem_of_get? ha, key_of_get? ha⟩, fun ⟨ha, hk⟩ => ?_⟩
  induction table with
  | nil => cases ha
  | cons b rest ih =>
    obtain ⟨hb, hrest⟩ := List.nodup_cons.mp (List.map_cons ▸ h)
    rcases List.mem_cons.mp ha with rfl | ha
    · simp [get?, hk]
    · have : key b ≠ k := fun hbk => hb (List.mem_map.mpr ⟨a, ha, by rw [hk, hbk]⟩)
      simp only [get?, this, if_false, ih hrest ⟨ha, hk⟩ ha]

/-- The order of a table that holds each key once does not matter. -/
theorem get?_perm {key : α → κ} {k : κ} {table table' : List α} (h : (table.map key).Nodup)
    (hp : table.Perm table') : get? key k table = get? key k table' := by
  have h' : (table'.map key).Nodup := (hp.map key).nodup_iff.mp h
  ext a
  rw [get?_iff h, get?_iff h', hp.mem_iff]

/-- A row whose key is there is not written. -/
theorem keep_of_mem {key : α → κ} {a b : α} {table : List α} (hb : b ∈ table) (h : key b = key a) :
    keep key a table = table := by
  unfold keep
  rcases hg : get? key (key a) table with _ | c
  · exact absurd h (get?_eq_none.mp hg b hb)
  · rfl

theorem get?_keep (key : α → κ) (a : α) (table : List α) :
    get? key (key a) (keep key a table) = some ((get? key (key a) table).getD a) := by
  unfold keep
  rcases hg : get? key (key a) table with _ | b
  · rw [← put_of_none hg, get?_put, if_pos rfl]
    rfl
  · exact hg

theorem putAll_concat (key : α → κ) (rows : List α) (a : α) (table : List α) :
    putAll key (rows ++ [a]) table = put key a (putAll key rows table) := by
  simp [putAll]

end StakeTrail.Keyed
