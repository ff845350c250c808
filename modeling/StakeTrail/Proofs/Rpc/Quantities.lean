import Mathlib
import StakeTrail.Proofs.Text.Numerals
import StakeTrail.Rpc.Quantity

/-!
# Quantities and their texts

`IsQuantity` is the grammar of quantities: `0x` or nothing, a plus sign or nothing, then hexadecimal digits in either
case. A text has at most one beginning that is left off (`isQuantity_iff`), so the numeral behind it decides.

**The main statement** (`quantities_read`): the quantities up to the greatest word are read, and nothing else is.
-/

namespace StakeTrail.Rpc

open Text Numeral

variable {raw text : String} {n : Nat}

/-- **A quantity and its value**: a numeral with `0x` before it or without. -/
def IsQuantity (raw : String) (n : Nat) : Prop := ∃ mark ∈ ["", "0x"], ∃ text, Writes 16 text n ∧ raw = mark ++ text

/-! ## The mark -/

theorem bare_marked (text : String) : Address.bare ("0x" ++ text) = text := by
  have hlist : ("0x" ++ text).toList = '0' :: 'x' :: text.toList := String.toList_append
  unfold Address.bare
  rw [hlist]
  exact String.ofList_toList

/-- A numeral has no mark. -/
theorem bare_of_writes (h : Writes 16 text n) : Address.bare text = text := by
  obtain ⟨sign, hsign, cs, hdenotes, hlist⟩ := h
  simp only [List.mem_cons, List.not_mem_nil, or_false] at hsign
  unfold Address.bare
  split
  · rename_i rest hmarked
    rw [hmarked] at hlist
    rcases hsign with rfl | rfl
    · -- the second character of the mark is no digit
      obtain ⟨v, hv⟩ := hdenotes.stands 'x' (by rw [List.nil_append] at hlist; simp [← hlist])
      cases hv.digit?_eq le_rfl
    · cases hlist
  · rfl

/-- Nothing but the mark is left off. -/
theorem exists_mark (raw : String) : ∃ mark ∈ ["", "0x"], raw = mark ++ Address.bare raw := by
  unfold Address.bare
  split
  · rename_i rest hlist
    have hmark : "0x".toList = ['0', 'x'] := rfl
    refine ⟨"0x", by simp, String.toList_inj.mp ?_⟩
    rw [hlist, String.toList_append, hmark, String.toList_ofList]
    rfl
  · exact ⟨"", by simp, String.empty_append.symm⟩

theorem isQuantity_iff : IsQuantity raw n ↔ Writes 16 (Address.bare raw) n := by
  constructor
  · rintro ⟨mark, hmark, text, htext, rfl⟩
    simp only [List.mem_cons, List.not_mem_nil, or_false] at hmark
    rcases hmark with rfl | rfl
    · rw [String.empty_append, bare_of_writes htext]
      exact htext
    · rw [bare_marked]
      exact htext
  · intro h
    obtain ⟨mark, hmark, hraw⟩ := exists_mark raw
    exact ⟨mark, hmark, _, h, hraw⟩

/-! ## Reading -/

/-- **A quantity is read as its value**, or refused if that is above the greatest word. -/
theorem IsQuantity.readQuantity_eq (h : IsQuantity raw n) : readQuantity raw =
    if n ≤ Word.top then .ok n else .error (.decode (.quantity raw .tooLarge)) := by
  unfold readQuantity
  rw [(isQuantity_iff.mp h).natural_eq (by decide) le_rfl]
  by_cases hle : n ≤ Word.top
  · rw [if_pos hle, if_pos hle]
  · rw [if_neg hle, if_neg hle]

theorem readQuantity_eq_ok_iff : readQuantity raw = .ok n ↔ IsQuantity raw n ∧ n ≤ Word.top := by
  rw [isQuantity_iff, ← natural_eq_ok_iff (by decide) le_rfl]
  unfold readQuantity
  rcases natural 16 Word.top (Address.bare raw) with why | m
  · exact iff_of_false nofun nofun
  · exact ⟨fun h => congrArg _ (Except.ok.inj h), fun h => congrArg _ (Except.ok.inj h)⟩

/-- What is not read is refused for its text. -/
theorem exists_flaw (h : ∀ n, readQuantity raw ≠ .ok n) :
    ∃ why, readQuantity raw = .error (.decode (.quantity raw why)) := by
  unfold readQuantity at h ⊢
  rcases hn : natural 16 Word.top (Address.bare raw) with why | n
  · exact ⟨why, rfl⟩
  · rw [hn] at h
    exact (h n rfl).elim

/-- A number after any zeros is a quantity. -/
theorem isQuantity_padded (zeros n : Nat) :
    IsQuantity ("0x" ++ String.ofList (List.replicate zeros '0' ++ Nat.toDigits 16 n)) n :=
  ⟨"0x", by simp, _, ⟨[], by simp, _, (denotes_toDigits (by decide) n).zeros (by decide) zeros, String.toList_ofList⟩,
    rfl⟩

/-- **The quantities up to the greatest word are read, and nothing else is.** A number up to the greatest word is read
back from the text it is written as. A text is read as a number just if it is a quantity of that value, and the number is
a word; any other text is refused as unreadable, and a quantity above the greatest word as too large. Any number of zeros
may stand before a number that is written. -/
theorem quantities_read (raw : String) (n : Nat) :
    (n ≤ Word.top → readQuantity (quantity n) = .ok n) ∧
    (readQuantity raw = .ok n ↔ IsQuantity raw n ∧ n ≤ Word.top) ∧
    ((∀ m, IsQuantity raw m → Word.top < m) → ∃ why, readQuantity raw = .error (.decode (.quantity raw why))) ∧
    (IsQuantity raw n → Word.top < n → readQuantity raw = .error (.decode (.quantity raw .tooLarge))) ∧
    ∀ zeros, IsQuantity ("0x" ++ String.ofList (List.replicate zeros '0' ++ Nat.toDigits 16 n)) n := by
  refine ⟨fun hle => ?_, readQuantity_eq_ok_iff, fun h => ?_, fun h hlt => ?_, fun zeros => isQuantity_padded zeros n⟩
  · exact readQuantity_eq_ok_iff.mpr ⟨isQuantity_padded 0 n, hle⟩
  · refine exists_flaw fun m hm => ?_
    obtain ⟨hm, hle⟩ := readQuantity_eq_ok_iff.mp hm
    exact absurd (h m hm) (Nat.not_lt_of_le hle)
  · rw [h.readQuantity_eq, if_neg (Nat.not_le_of_lt hlt)]

/-! ### Two texts with zeros -/

/-- A quantity with everything that it may have. -/
theorem isQuantity_sample : IsQuantity "0x+00fF" 255 := by
  have hdigits : List.Forall₂ (Stands 16) ['0', '0', 'f', 'F'] [0, 0, 15, 15] :=
    .cons ⟨by decide, .inl rfl⟩ (.cons ⟨by decide, .inl rfl⟩ (.cons ⟨by decide, .inl rfl⟩
      (.cons ⟨by decide, .inr rfl⟩ .nil)))
  exact ⟨"0x", by simp, "+00fF", ⟨['+'], by simp, _, ⟨List.cons_ne_nil _ _, _, hdigits, rfl⟩, rfl⟩, rfl⟩

/-- **One of them is read**, and the other, the least number that is no word, is refused. -/
theorem sampleQuantities_read : IsQuantity "0x+00fF" 255 ∧ readQuantity "0x+00fF" = .ok 255 ∧
    Word.top < 0x10000000000000000 ∧ IsQuantity "0x00010000000000000000" 0x10000000000000000 ∧
    readQuantity "0x00010000000000000000" = .error (.decode (.quantity "0x00010000000000000000" .tooLarge)) := by
  obtain ⟨-, hread, -⟩ := quantities_read "0x+00fF" 255
  obtain ⟨-, -, -, hrefused, hpadded⟩ := quantities_read "0x00010000000000000000" 0x10000000000000000
  have hlt : Word.top < 0x10000000000000000 := by decide
  exact ⟨isQuantity_sample, hread.mpr ⟨isQuantity_sample, by decide⟩, hlt, hpadded 3, hrefused (hpadded 3) hlt⟩

end StakeTrail.Rpc
