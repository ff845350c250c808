import Mathlib
import StakeTrail.Cache

/-!
# Keys of listings

The key of a listing holds the parameters of its query one after the other, with a separator between them. A separator
may also stand in a parameter, and there it looks like one between two of them.

* Parameters that hold equally many separators can be told from each other (`joined_injective`), and so can those that
  hold none from all others (`joined_eq_of_bare`).
* A separator in a parameter may as well stand between two: then other parameters are written alike
  (`exists_joined_eq`).

**The main statement** (`listingKeys_apart`) says when a query has a key of its own.
-/

namespace StakeTrail.Cache

/-! ## Texts with separators between them -/

/-- What stands between two parameters. -/
def separator : Char := '_'

variable {f g rest rest' : List Char} {l l' : List (List Char)}

/-- Texts one after the other, with a separator between them. -/
def joined (l : List (List Char)) : List Char := [separator].intercalate l

@[simp] theorem joined_singleton (f : List Char) : joined [f] = f := List.intercalate_singleton

@[simp] theorem joined_cons_cons (f g : List Char) (l : List (List Char)) :
    joined (f :: g :: l) = f ++ separator :: joined (g :: l) := by
  simp [joined, List.intercalate_cons_cons]

/-- A text ends where as many separators are passed as it holds. -/
theorem append_separator_injective (h : f ++ separator :: rest = g ++ separator :: rest')
    (hcount : f.count separator = g.count separator) : f = g ∧ rest = rest' := by
  -- the longer of the two would hold the separator that follows the shorter one
  have hlonger : ∀ {f g t rest rest' : List Char}, g = f ++ t → separator :: rest = t ++ separator :: rest' →
      f.count separator = g.count separator → f = g ∧ rest = rest' := by
    intro f g t rest rest' hg hrest hcount
    rcases t with _ | ⟨c, t⟩
    · exact ⟨by simp [hg], by simpa using hrest⟩
    · rw [hg, List.count_append, ← (List.cons.inj hrest).1, List.count_cons_self] at hcount
      omega
  rcases List.append_eq_append_iff.mp h with ⟨t, hg, hrest⟩ | ⟨t, hf, hrest⟩
  · exact hlonger hg hrest hcount
  · obtain ⟨hfg, hrest⟩ := hlonger hf hrest hcount.symm
    exact ⟨hfg.symm, hrest.symm⟩

/-- **Texts that hold equally many separators** are told from each other. -/
theorem joined_injective : ∀ {l l' : List (List Char)},
    l.map (List.count separator) = l'.map (List.count separator) → joined l = joined l' → l = l'
  | [], [], _, _ => rfl
  | [], _ :: _, hcounts, _ => by cases hcounts
  | _ :: _, [], hcounts, _ => by cases hcounts
  | [f], [g], _, h => by simpa using h
  | [_], _ :: _ :: _, hcounts, _ => by simp at hcounts
  | _ :: _ :: _, [_], hcounts, _ => by simp at hcounts
  | f :: f' :: l, g :: g' :: l', hcounts, h => by
    rw [joined_cons_cons, joined_cons_cons] at h
    obtain ⟨hcount, hcounts⟩ := List.cons.inj hcounts
    obtain ⟨hfg, hrest⟩ := append_separator_injective h hcount
    rw [hfg, joined_injective hcounts hrest]

/-- The separators of texts that are joined: those in them, and those between them. -/
theorem count_joined : ∀ l : List (List Char),
    (joined l).count separator = (l.map (List.count separator)).sum + (l.length - 1)
  | [] => rfl
  | [f] => by simp
  | f :: g :: l => by
    rw [joined_cons_cons, List.count_append, List.count_cons_self, count_joined (g :: l)]
    simp only [List.map_cons, List.sum_cons, List.length_cons]
    omega

/-- **Texts without a separator** are told from all others of their number. -/
theorem joined_eq_of_bare (hl : ∀ f ∈ l, separator ∉ f) (hlength : l'.length = l.length) (h : joined l' = joined l) :
    l' = l := by
  have hnone : l.map (List.count separator) = List.replicate l.length 0 :=
    List.map_eq_replicate_iff.mpr fun f hf => List.count_eq_zero_of_not_mem (hl f hf)
  have hsum : (l'.map (List.count separator)).sum = 0 := by
    have hcounts := congrArg (List.count separator) h
    rw [count_joined, count_joined, hlength, hnone] at hcounts
    simpa using hcounts
  refine joined_injective ?_ h
  rw [hnone, ← hlength, List.map_eq_replicate_iff]
  exact fun f hf => List.sum_eq_zero_iff.mp hsum _ (List.mem_map_of_mem hf)

/-- **A separator in a text** may as well stand between two: other texts are joined alike. -/
theorem exists_joined_eq : ∀ {l : List (List Char)}, 2 ≤ l.length → (∃ f ∈ l, separator ∈ f) →
    ∃ l', l' ≠ l ∧ l'.length = l.length ∧ joined l' = joined l
  | [], h, _ => by simp at h
  | [_], h, _ => by simp at h
  | f :: g :: l, _, hmem => by
    by_cases hf : separator ∈ f
    · obtain ⟨a, b, rfl⟩ := List.append_of_mem hf
      refine ⟨a :: (b ++ separator :: g) :: l, by simp, rfl, ?_⟩
      rcases l with _ | ⟨k, l⟩ <;> simp
    · rcases l with _ | ⟨k, l⟩
      · have hg : separator ∈ g := by simpa [hf] using hmem
        obtain ⟨a, b, rfl⟩ := List.append_of_mem hg
        exact ⟨[f ++ separator :: a, b], by simp, rfl, by simp⟩
      · have hrest : ∃ f ∈ g :: k :: l, separator ∈ f := by simpa [hf] using hmem
        obtain ⟨l', hne, hlength, hjoined⟩ := exists_joined_eq (l := g :: k :: l) (by simp) hrest
        rcases l' with _ | ⟨g', l'⟩
        · cases hlength
        · refine ⟨f :: g' :: l', by simpa using hne, by simpa using hlength, ?_⟩
          rw [joined_cons_cons, hjoined, joined_cons_cons f g]

/-! ## Keys -/

namespace ListingQuery

/-- The parameters of a query, as its key holds them. -/
def fields (q : ListingQuery) : List String := [q.status, q.key, q.offset, q.limit, q.countTotal, q.reverse]

/-- The number of separators in each of the parameters. -/
def separators (q : ListingQuery) : List Nat := q.fields.map fun f => f.toList.count separator

/-- Whether a separator stands in some parameter. -/
def HasSeparator (q : ListingQuery) : Prop := ∃ f ∈ q.fields, separator ∈ f.toList

variable {q q' : ListingQuery}

theorem fields_injective (h : q.fields = q'.fields) : q = q' := by
  cases q
  cases q'
  simpa [fields] using h

/-- Any six texts are the parameters of a query. -/
theorem exists_fields (l : List (List Char)) (h : l.length = 6) :
    ∃ q : ListingQuery, q.fields.map String.toList = l := by
  rcases l with _ | ⟨a, _ | ⟨b, _ | ⟨c, _ | ⟨d, _ | ⟨e, _ | ⟨f, _ | ⟨g, l⟩⟩⟩⟩⟩⟩⟩ <;> simp at h
  exact ⟨⟨.ofList a, .ofList b, .ofList c, .ofList d, .ofList e, .ofList f⟩, by simp [fields]⟩

end ListingQuery

/-- A key is the root and the parameters, joined. -/
theorem toList_listingKey (q : ListingQuery) :
    (listingKey q).toList = validatorsRoot.toList ++ separator :: joined (q.fields.map String.toList) := by
  simp [listingKey, ListingQuery.fields, separator]

variable {q q' : ListingQuery}

theorem listingKey_eq_iff : listingKey q = listingKey q' ↔
    joined (q.fields.map String.toList) = joined (q'.fields.map String.toList) := by
  rw [← String.toList_inj, toList_listingKey, toList_listingKey]
  simp

/-- Queries with equally many separators in each parameter have different keys. -/
theorem listingKey_injective (hsame : q.separators = q'.separators) (h : listingKey q = listingKey q') : q = q' := by
  have hfields := joined_injective (by simpa [ListingQuery.separators, Function.comp_def] using hsame)
    (listingKey_eq_iff.mp h)
  exact ListingQuery.fields_injective (List.map_injective_iff.mpr (fun _ _ => String.toList_injective) hfields)

/-- **A query shares its key** just if a separator stands in one of its parameters. -/
theorem exists_listingKey_eq_iff : (∃ q', q' ≠ q ∧ listingKey q' = listingKey q) ↔ q.HasSeparator := by
  constructor
  · rintro ⟨q', hne, h⟩
    by_contra hbare
    refine hne (ListingQuery.fields_injective (List.map_injective_iff.mpr (fun _ _ => String.toList_injective) ?_))
    refine joined_eq_of_bare (fun f hf hmem => hbare ?_) rfl (listingKey_eq_iff.mp h)
    obtain ⟨s, hs, rfl⟩ := List.mem_map.mp hf
    exact ⟨s, hs, hmem⟩
  · rintro ⟨s, hs, hmem⟩
    obtain ⟨l, hne, hlength, h⟩ := exists_joined_eq (l := q.fields.map String.toList) (by simp [ListingQuery.fields])
      ⟨s.toList, List.mem_map_of_mem hs, hmem⟩
    obtain ⟨q', rfl⟩ := ListingQuery.exists_fields l hlength
    exact ⟨q', fun heq => hne (heq ▸ rfl), listingKey_eq_iff.mpr h⟩

/-- **When listings have keys of their own.** Two queries that differ and hold equally many separators in each parameter
have different keys. A query shares its key with another one just if a separator stands in one of its parameters. No key
of a listing is one of rewards. -/
theorem listingKeys_apart :
    (∀ q q' : ListingQuery, q ≠ q' → q.separators = q'.separators → listingKey q ≠ listingKey q') ∧
    (∀ q : ListingQuery, (∃ q', q' ≠ q ∧ listingKey q' = listingKey q) ↔ q.HasSeparator) ∧
    ∀ (q : ListingQuery) (address : String), listingKey q ≠ rewardKey address := by
  refine ⟨fun q q' hne hsame h => hne (listingKey_injective hsame h), fun q => exists_listingKey_eq_iff,
    fun q address h => ?_⟩
  have htexts := congrArg String.toList h
  rw [toList_listingKey, rewardKey, String.toList_append] at htexts
  cases htexts

/-! ### A separator that stands in a parameter -/

/-- A query for the validators of a status, from a place on. -/
def sampleQuery : ListingQuery := { status := "bonded", key := "AA_BB" }

/-- The same text, parted at another place. -/
def shiftedQuery : ListingQuery := { status := "bonded_AA", key := "BB" }

/-- **Two queries with one key.** -/
theorem listingKeys_shared : sampleQuery ≠ shiftedQuery ∧ listingKey sampleQuery = listingKey shiftedQuery := by decide

/-- The query has a key of its own among those with one separator in the second parameter, but not among all. -/
theorem sampleQuery_apart : sampleQuery ≠ { sampleQuery with key := "AAB_B" } ∧
    listingKey sampleQuery ≠ listingKey { sampleQuery with key := "AAB_B" } ∧
    (∃ q', q' ≠ sampleQuery ∧ listingKey q' = listingKey sampleQuery) ∧
    listingKey sampleQuery ≠ rewardKey "AA_BB" := by
  obtain ⟨hdiffer, hshared, hrewards⟩ := listingKeys_apart
  have hne : sampleQuery ≠ { sampleQuery with key := "AAB_B" } := by decide
  refine ⟨hne, hdiffer _ _ hne (by decide), (hshared _).mpr ⟨"AA_BB", ?_, ?_⟩, hrewards _ _⟩ <;> decide

end StakeTrail.Cache
