import Mathlib
import StakeTrail.Address

/-!
# Spellings of bytes

Characters *spell* bytes when they are the two digits of each byte, the letters in either case (`Hex.Spells`). Every
spelling is read back to its bytes (`Hex.Spells.decode`), so the digits that are written determine the bytes
(`Hex.encodeChars_injective`).

An address arrives in one of many spellings: with blanks around it, with `0x`, `0X` or nothing in front, and in any
letter case (`Address.Spelled`). All of them have the same normal form, the text of the address
(`Address.Spelled.normalForm_eq`).
-/

namespace StakeTrail

open Text

/-! ## Digits -/

namespace Text.Hex

theorem toNat_digit {n : Nat} (hn : n < 16) : (digit n).toNat = if n < 10 then 48 + n else 87 + n := by
  have hall : ∀ k < 16, (digit k).toNat = if k < 10 then 48 + k else 87 + k := by decide
  exact hall n hn

theorem toNat_toLower (c : Char) :
    c.toLower.toNat = if 65 ≤ c.toNat ∧ c.toNat ≤ 90 then c.toNat + 32 else c.toNat := by
  have hiff : (c.val ≥ 'A'.val ∧ c.val ≤ 'Z'.val) ↔ 65 ≤ c.toNat ∧ c.toNat ≤ 90 := Iff.rfl
  unfold Char.toLower
  simp only [hiff]
  split
  · rename_i h
    have hsum : (c.val + 32).toNat = c.toNat + 32 := by
      rw [UInt32.toNat_add]
      show (c.toNat + 32) % 2 ^ 32 = c.toNat + 32
      omega
    exact hsum
  · rfl

/-- **A digit in either letter case.** -/
theorem digit_cases {c : Char} {n : Nat} (hn : n < 16) (h : c.toLower = digit n) :
    (c.toNat = 48 + n ∧ n < 10) ∨ (c.toNat = 87 + n ∧ 10 ≤ n) ∨ (c.toNat = 55 + n ∧ 10 ≤ n) := by
  have hnat := congrArg Char.toNat h
  rw [toNat_toLower, toNat_digit hn] at hnat
  split at hnat <;> split at hnat <;> omega

/-- The code of a character below 128, as a byte. -/
def code (c : Char) : UInt8 := UInt8.ofNat c.toNat

/-- A digit in either letter case is read as its value. -/
theorem nibble?_code {c : Char} {n : Nat} (hn : n < 16) (h : c.toLower = digit n) : nibble? (code c) = some n := by
  have hcases := digit_cases hn h
  have hcode : (code c).toNat = c.toNat := by
    have hmod : (code c).toNat = c.toNat % 256 := rfl
    omega
  unfold nibble?
  simp only [hcode]
  split
  · simp
    omega
  · split
    · simp
      omega
    · split
      · simp
        omega
      · omega

/-! ## Spellings -/

/-- Characters spell bytes: they are their digits, the letters in either case. -/
def Spells (bytes : Bytes) (cs : List Char) : Prop := cs.map Char.toLower = encodeChars bytes

variable {bytes : Bytes} {cs : List Char}

@[simp] theorem length_encodeChars : ∀ bytes : Bytes, (encodeChars bytes).length = 2 * bytes.length
  | [] => rfl
  | b :: rest => by
    rw [encodeChars, List.length_cons, List.length_cons, length_encodeChars rest, List.length_cons]
    omega

/-- A spelling of one byte more. -/
theorem Spells.cons {b : UInt8} (h : Spells (b :: bytes) cs) :
    ∃ high low rest, cs = high :: low :: rest ∧ high.toLower = digit (b.toNat / 16) ∧
      low.toLower = digit (b.toNat % 16) ∧ Spells bytes rest := by
  unfold Spells encodeChars at h
  match cs, h with
  | high :: low :: rest, h =>
    simp only [List.map_cons, List.cons.injEq] at h
    exact ⟨high, low, rest, rfl, h.1, h.2.1, h.2.2⟩
  | [_], h => simp at h
  | [], h => simp at h

/-- Every character of a spelling is a digit. -/
theorem Spells.digits (h : Spells bytes cs) : ∀ c ∈ cs, ∃ n < 16, c.toLower = digit n := by
  induction bytes generalizing cs with
  | nil =>
    intro c hc
    have hnil : cs = [] := List.map_eq_nil_iff.mp h
    rw [hnil] at hc
    cases hc
  | cons b bytes ih =>
    obtain ⟨high, low, rest, rfl, hhigh, hlow, hrest⟩ := h.cons
    have hb := b.toNat_lt
    intro c hc
    rcases List.mem_cons.mp hc with rfl | hc
    · exact ⟨b.toNat / 16, by omega, hhigh⟩
    rcases List.mem_cons.mp hc with rfl | hc
    · exact ⟨b.toNat % 16, by omega, hlow⟩
    · exact ih hrest c hc

theorem Spells.length_eq (h : Spells bytes cs) : cs.length = 2 * bytes.length := by
  rw [← List.length_map (f := Char.toLower), h, length_encodeChars]

/-- What is written is in lower case. -/
theorem map_toLower_encodeChars : ∀ bytes : Bytes, (encodeChars bytes).map Char.toLower = encodeChars bytes
  | [] => rfl
  | b :: rest => by
    have hlower : ∀ n < 16, (digit n).toLower = digit n := by decide
    have hb := b.toNat_lt
    rw [encodeChars, List.map_cons, List.map_cons, hlower (b.toNat / 16) (by omega),
      hlower (b.toNat % 16) (by omega), map_toLower_encodeChars rest]

theorem spells_encodeChars (bytes : Bytes) : Spells bytes (encodeChars bytes) := map_toLower_encodeChars bytes

/-! ## Reading a spelling -/

theorem toList_loop (a : ByteArray) (i : Nat) (read : List UInt8) :
    ByteArray.toList.loop a i read = read.reverse ++ a.data.toList.drop i := by
  induction hn : a.size - i generalizing i read with
  | zero =>
    have hle : a.data.toList.length ≤ i := by
      have hsize : a.data.toList.length = a.size := rfl
      omega
    rw [ByteArray.toList.loop, if_neg (by omega), List.drop_eq_nil_of_le hle, List.append_nil]
  | succ n ih =>
    have hlt : i < a.data.toList.length := by
      have hsize : a.data.toList.length = a.size := rfl
      omega
    have hhead : a.get! i = a.data.toList[i] := by
      show a.data[i]! = a.data.toList[i]
      rw [Array.getElem_toList, getElem!_pos a.data i (by simpa using hlt)]
    rw [ByteArray.toList.loop, if_pos (by omega), ih (i + 1) _ (by omega), List.drop_eq_getElem_cons hlt, hhead]
    simp

/-- The bytes of a text of characters below 128 are their codes. -/
theorem utf8_ofList (h : ∀ c ∈ cs, c.toNat < 128) : utf8 (String.ofList cs) = cs.map code := by
  have hchar : ∀ c ∈ cs, String.utf8EncodeChar c = [code c] := by
    intro c hc
    have hlt : c.val.toNat ≤ 127 := Nat.le_of_lt_succ (h c hc)
    rw [String.utf8EncodeChar, if_pos hlt]
    rfl
  have hdata : (String.ofList cs).toUTF8.data.toList = cs.flatMap String.utf8EncodeChar := by
    show (List.utf8Encode cs).data.toList = _
    simp [List.utf8Encode]
  unfold utf8 ByteArray.toList
  rw [toList_loop, hdata, List.reverse_nil, List.nil_append, List.drop_zero]
  clear hdata
  induction cs with
  | nil => rfl
  | cons c cs ih =>
    rw [List.flatMap_cons, hchar c List.mem_cons_self, List.map_cons,
      ih (fun d hd => h d (List.mem_cons_of_mem _ hd)) fun d hd => hchar d (List.mem_cons_of_mem _ hd)]
    rfl

theorem pairs_of_spells (h : Spells bytes cs) (position : Nat) : pairs position (cs.map code) = .ok bytes := by
  induction bytes generalizing cs position with
  | nil =>
    have hnil : cs = [] := List.map_eq_nil_iff.mp h
    rw [hnil]
    rfl
  | cons b bytes ih =>
    obtain ⟨high, low, rest, rfl, hhigh, hlow, hrest⟩ := h.cons
    have hb := b.toNat_lt
    have hbyte : UInt8.ofNat (16 * (b.toNat / 16) + b.toNat % 16) = b := by
      rw [Nat.div_add_mod, UInt8.ofNat_toNat]
    simp only [List.map_cons, pairs, nibble?_code (n := b.toNat / 16) (by omega) hhigh,
      nibble?_code (n := b.toNat % 16) (by omega) hlow, ih hrest, hbyte]
    rfl

/-- **A spelling is read back**, whatever the case of its letters. -/
theorem Spells.decode (h : Spells bytes cs) : decode (String.ofList cs) = .ok bytes := by
  have hascii : ∀ c ∈ cs, c.toNat < 128 := by
    intro c hc
    obtain ⟨n, hn, hdigit⟩ := h.digits c hc
    have := digit_cases hn hdigit
    omega
  have heven : ¬(cs.map code).length % 2 = 1 := by
    rw [List.length_map, h.length_eq]
    omega
  unfold Hex.decode
  simp only [utf8_ofList hascii]
  rw [if_neg heven, pairs_of_spells h]

/-- **What is written determines the bytes.** -/
theorem encodeChars_injective {a b : Bytes} (h : encodeChars a = encodeChars b) : a = b := by
  have ha := (spells_encodeChars a).decode
  rw [h, (spells_encodeChars b).decode] at ha
  exact (Except.ok.inj ha).symm

/-- Characters spell bytes behind one of some beginnings. -/
def SpellsAfter (starts : List String) (bytes : Bytes) (cs : List Char) : Prop :=
  ∃ start ∈ starts, ∃ digits, Spells bytes digits ∧ cs = start.toList ++ digits

/-- No digit is an `x`, so bare digits begin with neither `0x` nor `0X`. -/
theorem Spells.ne_start (h : Spells bytes cs) (rest : List Char) : cs ≠ '0' :: 'x' :: rest ∧ cs ≠ '0' :: 'X' :: rest := by
  have hsmall : 'x'.toNat = 120 := rfl
  have hcapital : 'X'.toNat = 88 := rfl
  constructor
  · rintro rfl
    obtain ⟨n, hn, hdigit⟩ := h.digits 'x' (by simp)
    have hcases := digit_cases hn hdigit
    omega
  · rintro rfl
    obtain ⟨n, hn, hdigit⟩ := h.digits 'X' (by simp)
    have hcases := digit_cases hn hdigit
    omega

end Text.Hex

/-! ## Blanks -/

namespace Text

theorem trimmed_append {before core after : List Char} (hbefore : ∀ c ∈ before, isBlank c = true)
    (hafter : ∀ c ∈ after, isBlank c = true) (hcore : ∀ c ∈ core, isBlank c = false) (hne : core ≠ []) :
    trimmed (before ++ core ++ after) = core := by
  -- what is kept from either end begins with a character of the core
  have hstop : ∀ {cs rest : List Char}, (∀ c ∈ cs, isBlank c = false) → cs ≠ [] →
      (cs ++ rest).dropWhile isBlank = cs ++ rest := by
    intro cs rest hcs hne
    cases cs with
    | nil => exact absurd rfl hne
    | cons c cs => rw [List.cons_append, List.dropWhile_cons_of_neg (by simp [hcs c List.mem_cons_self])]
  have hfront : (before ++ (core ++ after)).dropWhile isBlank = core ++ after := by
    rw [List.dropWhile_append_of_pos hbefore, hstop hcore hne]
  have hback : (after.reverse ++ core.reverse).dropWhile isBlank = core.reverse := by
    have hcore' : ∀ c ∈ core.reverse, isBlank c = false := fun c hc => hcore c (List.mem_reverse.mp hc)
    have hne' : core.reverse ≠ [] := by simpa using hne
    rw [List.dropWhile_append_of_pos fun c hc => hafter c (List.mem_reverse.mp hc)]
    have hkept : (core.reverse ++ []).dropWhile isBlank = core.reverse ++ [] := hstop hcore' hne'
    rwa [List.append_nil] at hkept
  unfold trimmed
  rw [List.append_assoc, hfront, List.reverse_append, hback, List.reverse_reverse]

theorem isBlank_of_digit {c : Char} {n : Nat} (hn : n < 16) (h : c.toLower = Hex.digit n) : isBlank c = false := by
  have hcases := Hex.digit_cases hn h
  unfold isBlank
  simp only [Bool.or_eq_false_iff, Bool.and_eq_false_iff, decide_eq_false_iff_not, beq_eq_false_iff_ne]
  omega

theorem isBlank_of_start {start : String} (h : start ∈ ["", "0x", "0X"]) : ∀ c ∈ start.toList, isBlank c = false := by
  simp only [List.mem_cons, List.not_mem_nil, or_false] at h
  rcases h with rfl | rfl | rfl <;> simp [isBlank]

end Text

/-! ## Addresses -/

namespace Address

variable {bytes : Bytes} {text : String}

theorem toList_ofBytes (bytes : Bytes) : (ofBytes bytes).toList = '0' :: 'x' :: Hex.encodeChars bytes := by
  have hstart : "0x".toList = ['0', 'x'] := rfl
  rw [ofBytes, String.toList_append, hstart, Hex.encode, String.toList_ofList]
  rfl

/-- **The text of an address determines the address.** -/
theorem ofBytes_injective {a b : Bytes} (h : ofBytes a = ofBytes b) : a = b := by
  have hlist := congrArg String.toList h
  rw [toList_ofBytes, toList_ofBytes, List.cons.injEq, List.cons.injEq] at hlist
  exact Hex.encodeChars_injective hlist.2.2

/-- The text of an address spells it. -/
theorem spellsAfter_ofBytes {starts : List String} (h : "0x" ∈ starts) (bytes : Bytes) :
    Hex.SpellsAfter starts bytes (ofBytes bytes).toList := by
  refine ⟨"0x", h, Hex.encodeChars bytes, Hex.spells_encodeChars bytes, ?_⟩
  rw [toList_ofBytes]
  rfl

/-- A text spells an address: blanks, the address with `0x`, `0X` or nothing in front, blanks. -/
def Spelled (bytes : Bytes) (text : String) : Prop :=
  ∃ before core after, text.toList = before ++ core ++ after ∧ (∀ c ∈ before ++ after, isBlank c = true) ∧
    Hex.SpellsAfter ["", "0x", "0X"] bytes core

theorem spelled_ofBytes (bytes : Bytes) : Spelled bytes (ofBytes bytes) :=
  ⟨[], (ofBytes bytes).toList, [], by simp, by simp, spellsAfter_ofBytes (by simp) bytes⟩

theorem bare_eq (hs : Hex.SpellsAfter ["", "0x"] bytes text.toList) :
    ∃ digits, Hex.Spells bytes digits ∧ bare text = String.ofList digits := by
  obtain ⟨start, hstart, digits, hdigits, htext⟩ := hs
  refine ⟨digits, hdigits, ?_⟩
  unfold bare
  simp only [List.mem_cons, List.not_mem_nil, or_false] at hstart
  rcases hstart with rfl | rfl
  · have hlist : text.toList = digits := htext
    split
    · rename_i rest hrest
      exact absurd (hlist.symm.trans hrest) (hdigits.ne_start rest).1
    · rw [← hlist, String.ofList_toList]
  · have hlist : text.toList = '0' :: 'x' :: digits := htext
    simp only [hlist]

/-- A key with or without `0x` owns what the key owns. -/
theorem ofKeyText_eq (hs : Hex.SpellsAfter ["", "0x"] bytes text.toList) : ofKeyText text = ofKey bytes := by
  obtain ⟨digits, hdigits, hbare⟩ := bare_eq hs
  unfold ofKeyText
  rw [hbare, hdigits.decode]

/-- **Every spelling of an address has its text as normal form.** -/
theorem Spelled.normalForm_eq (hs : Spelled bytes text) (hne : bytes ≠ []) : normalForm text = ofBytes bytes := by
  obtain ⟨before, core, after, htext, hblank, start, hstart, digits, hdigits, hcore⟩ := hs
  have hdigitsne : digits ≠ [] := by
    intro hnil
    have hlength := hdigits.length_eq
    rw [hnil] at hlength
    have : bytes.length = 0 := by
      simp only [List.length_nil] at hlength
      omega
    exact hne (List.length_eq_zero_iff.mp this)
  have hplain : ∀ c ∈ core, isBlank c = false := by
    intro c hc
    rw [hcore] at hc
    rcases List.mem_append.mp hc with hc | hc
    · exact isBlank_of_start hstart c hc
    · obtain ⟨n, hn, hdigit⟩ := hdigits.digits c hc
      exact isBlank_of_digit hn hdigit
  have htrim : trimmed text.toList = core := by
    rw [htext]
    refine trimmed_append (fun c hc => ?_) (fun c hc => ?_) hplain ?_
    · exact hblank c (List.mem_append_left _ hc)
    · exact hblank c (List.mem_append_right _ hc)
    · rw [hcore]
      simp [hdigitsne]
  have hnormal : normalChars text.toList = '0' :: 'x' :: Hex.encodeChars bytes := by
    have hlower : digits.map Char.toLower = Hex.encodeChars bytes := hdigits
    unfold normalChars
    rw [htrim, hcore, ← hlower]
    simp only [List.mem_cons, List.not_mem_nil, or_false] at hstart
    rcases hstart with rfl | rfl | rfl
    · -- bare digits are none of the other cases
      rw [show "".toList ++ digits = digits from rfl]
      split
      · exact absurd rfl hdigitsne
      · exact absurd rfl (hdigits.ne_start _).1
      · exact absurd rfl (hdigits.ne_start _).2
      · rfl
    · rfl
    · rfl
  rw [normalForm, hnormal, ← toList_ofBytes, String.ofList_toList]

/-- **Two spelled addresses agree just if they are the same.** -/
theorem agree_iff {a b : Bytes} {s t : String} (hs : Spelled a s) (ht : Spelled b t) (ha : a ≠ []) (hb : b ≠ []) :
    agree s t = (b == a) := by
  unfold agree
  rw [hs.normalForm_eq ha, ht.normalForm_eq hb]
  by_cases h : a = b
  · simp [h]
  · have hofBytes : ofBytes a ≠ ofBytes b := fun heq => h (ofBytes_injective heq)
    simp [hofBytes, Ne.symm h]

end Address

end StakeTrail
