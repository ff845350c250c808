import Mathlib
import StakeTrail.Proofs.Text.Spelling

/-!
# The order of texts

Texts are compared character by character, which is also the order of their UTF-8 bytes (`utf8_lt_iff`): the first byte
of a character tells how many there are, longer sequences begin with greater bytes, and six bits are in each of the rest.
-/

namespace StakeTrail.Text

/-- The bytes of a text are those of its characters. -/
theorem utf8_eq (s : String) : Hex.utf8 s = s.toList.flatMap String.utf8EncodeChar := by
  have hdata : s.toUTF8.data.toList = s.toList.flatMap String.utf8EncodeChar := by
    rw [← String.ofList_toList (s := s)]
    show (List.utf8Encode _).data.toList = _
    simp [List.utf8Encode]
  unfold Hex.utf8 ByteArray.toList
  rw [Hex.toList_loop, hdata]
  rfl

/-- **The bytes of the lesser of two characters come first**, whatever comes after them. -/
theorem utf8EncodeChar_lt {c d : Char} (h : c < d) (s t : List UInt8) :
    String.utf8EncodeChar c ++ s < String.utf8EncodeChar d ++ t := by
  have hlt : c.val.toNat < d.val.toNat := h
  have hd : d.val.toNat < 0x110000 := by
    rcases d.valid with hd | ⟨-, hd⟩
    · exact Nat.lt_trans hd (by decide)
    · exact hd
  -- six bits at a time
  have hsecond (n : Nat) : n / 4096 = n / 64 / 64 := (Nat.div_div_eq_div_mul n 64 64).symm
  have hthird (n : Nat) : n / 262144 = n / 64 / 64 / 64 := by omega
  simp only [String.utf8EncodeChar, hsecond, hthird]
  generalize c.val.toNat = x at hlt ⊢
  generalize d.val.toNat = y at hlt hd ⊢
  split_ifs <;>
    simp only [List.cons_append, List.nil_append, List.cons_lt_cons_iff, UInt8.lt_iff_toNat_lt, ← UInt8.toNat_inj,
      UInt8.toNat_ofNat'] <;> omega

theorem flatMap_utf8EncodeChar_lt {cs ds : List Char} (h : cs < ds) :
    cs.flatMap String.utf8EncodeChar < ds.flatMap String.utf8EncodeChar := by
  induction h with
  | nil =>
    rename_i d ds
    have hne : (d :: ds).flatMap String.utf8EncodeChar ≠ [] := by
      simp only [List.flatMap_cons, ne_eq, List.append_eq_nil_iff, String.utf8EncodeChar]
      split_ifs <;> simp
    obtain ⟨b, bs, hcons⟩ := List.exists_cons_of_ne_nil hne
    rw [hcons]
    exact List.nil_lt_cons b bs
  | rel h =>
    rw [List.flatMap_cons, List.flatMap_cons]
    exact utf8EncodeChar_lt h _ _
  | cons _ ih =>
    rw [List.flatMap_cons, List.flatMap_cons]
    exact List.append_left_lt ih

/-- **Texts are ordered as their bytes are.** -/
theorem utf8_lt_iff {a b : String} : Hex.utf8 a < Hex.utf8 b ↔ a < b := by
  rw [utf8_eq, utf8_eq, String.lt_iff_toList_lt]
  refine ⟨fun h => ?_, flatMap_utf8EncodeChar_lt⟩
  rcases lt_trichotomy a b with hlt | rfl | hgt
  · exact String.lt_iff_toList_lt.mp hlt
  · exact absurd h (List.lt_irrefl _)
  · exact absurd (flatMap_utf8EncodeChar_lt (String.lt_iff_toList_lt.mp hgt)) (List.lt_asymm h)

end StakeTrail.Text
