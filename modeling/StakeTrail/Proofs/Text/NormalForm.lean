import StakeTrail.Proofs.Text.Spelling
import StakeTrail.Text.Case

/-!
# The normal form and letter case

A text is *normal* when it is empty or has `0x` in front, holds no capital ASCII letter and is its own normal form
(`Address.IsNormal`). Every normal form is normal (`Address.isNormal_normalForm`), so bringing a text into normal form
once more changes nothing.

Texts are asked for in any letter case, and put in lower case by the Unicode standard, not by the normal form. For normal
ASCII text both agree: **whatever the case of its letters, it is found** (`Address.IsNormal.lower_eq`).
-/

namespace StakeTrail

namespace Text

variable {cs : List Char} {q v : String}

/-! ## Letters -/

theorem toLower_eq_self_iff {c : Char} : c.toLower = c ↔ c.isUpper = false := by
  have hiff : c.isUpper = true ↔ 65 ≤ c.toNat ∧ c.toNat ≤ 90 := by
    unfold Char.isUpper
    rw [decide_eq_true_eq]
    rfl
  rw [← Bool.not_eq_true, hiff, ← Char.toNat_inj, Hex.toNat_toLower]
  split <;> omega

theorem isUpper_toLower (c : Char) : c.toLower.isUpper = false := by
  rw [← toLower_eq_self_iff, ← Char.toNat_inj, Hex.toNat_toLower, Hex.toNat_toLower]
  split_ifs <;> omega

/-- Characters without capital letters stay in lower case. -/
theorem map_toLower_eq_self (h : ∀ c ∈ cs, c.isUpper = false) : cs.map Char.toLower = cs :=
  (List.map_congr_left fun c hc => toLower_eq_self_iff.mpr (h c hc)).trans (List.map_id cs)

/-- Lower case makes no blanks. -/
theorem isBlank_toLower {c : Char} (h : isBlank c = false) : isBlank c.toLower = false := by
  unfold isBlank at h ⊢
  simp only [Bool.or_eq_false_iff, Bool.and_eq_false_iff, decide_eq_false_iff_not, beq_eq_false_iff_ne] at h ⊢
  rw [Hex.toNat_toLower]
  split <;> omega

/-- **One text in two letter cases**: the ASCII letters may differ in their case. -/
def SameLetters (q v : String) : Prop := q.toList.map Char.toLower = v.toList.map Char.toLower

instance : Decidable (SameLetters q v) := inferInstanceAs (Decidable (_ = _))

/-- A text of characters below 128. -/
def IsAscii (v : String) : Prop := ∀ c ∈ v.toList, c.toNat < 128

theorem SameLetters.isAscii (h : SameLetters q v) (hv : IsAscii v) : IsAscii q := by
  intro c hc
  have hmem : c.toLower ∈ v.toList.map Char.toLower := h ▸ List.mem_map_of_mem hc
  obtain ⟨d, hd, hdc⟩ := List.mem_map.mp hmem
  have hlt := hv d hd
  have hnat := congrArg Char.toNat hdc
  rw [Hex.toNat_toLower, Hex.toNat_toLower] at hnat
  split at hnat <;> split at hnat <;> omega

/-- On ASCII text, lower case by the Unicode standard is that of each letter. -/
theorem Case.lowerAfter_ascii (h : ∀ c ∈ cs, c.toNat < 128) (seen : List Char) :
    Case.lowerAfter seen cs = cs.map Char.toLower := by
  induction cs generalizing seen with
  | nil => rfl
  | cons c cs ih =>
    have hc : c.toNat < 128 := h c List.mem_cons_self
    have hsmall : Case.small c = [c.toLower] := by
      unfold Case.small
      exact if_pos hc
    have hsigma : c.toNat ≠ 0x3A3 := by omega
    unfold Case.lowerAfter
    simp only [if_neg hsigma, hsmall, ih fun d hd => h d (List.mem_cons_of_mem _ hd), List.map_cons,
      List.singleton_append]

theorem Case.lower_ascii (h : IsAscii q) : Case.lower q = String.ofList (q.toList.map Char.toLower) := by
  rw [Case.lower, Case.lowerAfter_ascii h]

/-! ## Trimmed text -/

/-- What is left of a text ends with no blank. -/
theorem getLast?_trimmed (cs : List Char) : ∀ c ∈ (trimmed cs).getLast?, isBlank c = false := by
  intro c hc
  have hstop := List.head?_dropWhile_not isBlank (cs.dropWhile isBlank).reverse
  rw [trimmed, List.getLast?_reverse] at hc
  rw [Option.mem_def.mp hc] at hstop
  exact hstop

/-- A text without a blank at either end is not trimmed. -/
theorem trimmed_eq_self (hfirst : ∀ c ∈ cs.head?, isBlank c = false) (hlast : ∀ c ∈ cs.getLast?, isBlank c = false) :
    trimmed cs = cs := by
  have hkept : ∀ {cs : List Char}, (∀ c ∈ cs.head?, isBlank c = false) → cs.dropWhile isBlank = cs := by
    intro cs h
    cases cs with
    | nil => rfl
    | cons c cs => exact List.dropWhile_cons_of_neg (by simp [h c rfl])
  rw [trimmed, hkept hfirst, hkept, List.reverse_reverse]
  intro c hc
  rw [List.head?_reverse] at hc
  exact hlast c hc

end Text

namespace Address

open Text

variable {s q v : String}

/-! ## The normal form -/

/-- **A normal text**: it is empty or has `0x` in front, holds no capital ASCII letter and is its own normal form. -/
structure IsNormal (s : String) : Prop where
  start : s = "" ∨ ∃ rest, s.toList = '0' :: 'x' :: rest
  small : ∀ c ∈ s.toList, c.isUpper = false
  fixed : normalForm s = s

/-- **The shape of the normal form**: nothing, or `0x` and characters in lower case that end with no blank. -/
theorem normalChars_shape (cs : List Char) :
    normalChars cs = [] ∨
      ∃ rest : List Char, normalChars cs = '0' :: 'x' :: rest.map Char.toLower ∧ ∀ c ∈ rest.getLast?, isBlank c = false := by
  have hlast := getLast?_trimmed cs
  have htail : ∀ {a b : Char} {rest : List Char}, trimmed cs = a :: b :: rest →
      ∀ c ∈ rest.getLast?, isBlank c = false := by
    intro a b rest h c hc
    apply hlast
    rw [h, List.getLast?_cons_cons, List.getLast?_cons, Option.mem_def.mp hc]
    rfl
  unfold normalChars
  split
  · exact .inl rfl
  · rename_i rest h
    exact .inr ⟨rest, rfl, htail h⟩
  · rename_i rest h
    exact .inr ⟨rest, rfl, htail h⟩
  · exact .inr ⟨_, rfl, hlast⟩

/-- A text of this shape is its own normal form. -/
theorem normalChars_fixed {rest : List Char} (hlast : ∀ c ∈ rest.getLast?, isBlank c = false) :
    normalChars ('0' :: 'x' :: rest.map Char.toLower) = '0' :: 'x' :: rest.map Char.toLower := by
  have htrim : trimmed ('0' :: 'x' :: rest.map Char.toLower) = '0' :: 'x' :: rest.map Char.toLower := by
    apply trimmed_eq_self
    · rintro c ⟨⟩
      decide
    · intro c hc
      rw [List.getLast?_cons_cons, List.getLast?_cons, List.getLast?_map] at hc
      rcases hrest : rest.getLast? with _ | d
      · rw [hrest] at hc
        cases hc
        decide
      · rw [hrest] at hc
        cases hc
        exact isBlank_toLower (hlast d hrest)
  have hlower : (rest.map Char.toLower).map Char.toLower = rest.map Char.toLower := by
    apply map_toLower_eq_self
    intro c hc
    obtain ⟨d, -, rfl⟩ := List.mem_map.mp hc
    exact isUpper_toLower d
  unfold normalChars
  rw [htrim]
  simp only [hlower]

/-- **Every normal form is normal.** -/
theorem isNormal_normalForm (s : String) : IsNormal (normalForm s) := by
  rcases normalChars_shape s.toList with h | ⟨rest, h, hlast⟩
  · have hempty : normalForm s = "" := by
      rw [normalForm, h]
    rw [hempty]
    exact ⟨.inl rfl, by simp, rfl⟩
  · have hlist : (normalForm s).toList = '0' :: 'x' :: rest.map Char.toLower := by
      rw [normalForm, h, String.toList_ofList]
    refine ⟨.inr ⟨_, hlist⟩, ?_, ?_⟩
    · rw [hlist]
      intro c hc
      simp only [List.mem_cons, List.mem_map] at hc
      rcases hc with rfl | rfl | ⟨d, -, rfl⟩
      · decide
      · decide
      · exact isUpper_toLower d
    · rw [normalForm, hlist, normalChars_fixed hlast, ← hlist, String.ofList_toList]

theorem isNormal_empty : IsNormal "" := ⟨.inl rfl, by simp, rfl⟩

/-- **The text of an address is normal.** -/
theorem isNormal_ofBytes (bytes : Bytes) : IsNormal (ofBytes bytes) := by
  by_cases h : bytes = []
  · subst h
    exact isNormal_normalForm "0x"
  · rw [← (spelled_ofBytes bytes).normalForm_eq h]
    exact isNormal_normalForm _

/-- **A normal ASCII text is found in any letter case**: what is asked for is put into the lower case that is stored. -/
theorem IsNormal.lower_eq (hv : IsNormal v) (hascii : IsAscii v) (h : SameLetters q v) : Case.lower q = v := by
  rw [Case.lower_ascii (h.isAscii hascii), h, map_toLower_eq_self hv.small, String.ofList_toList]

end Address

end StakeTrail
