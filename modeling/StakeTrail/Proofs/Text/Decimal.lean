import StakeTrail.Text.Numeral

/-!
# Decimal text

A natural number of any size is read back from the text it is written as (`large_toString`): its digits are read from
the left (`largeDigits_eq`), and the first of them is neither a sign nor an underscore. A number that is read within
bounds lies within them (`integer_bounds`).
-/

namespace StakeTrail.Text.Numeral

theorem digit?_of_isDigit {c : Char} (h : c.isDigit = true) : digit? 10 c = some (c.toNat - '0'.toNat) := by
  have hle : 48 ≤ c.toNat ∧ c.toNat ≤ 57 := by
    simp only [Char.isDigit, Bool.and_eq_true, decide_eq_true_eq] at h
    exact h
  have hlt : c.toNat - 48 < 10 := by omega
  simp only [digit?, if_pos hle, Option.filter_some, hlt, decide_true, if_true]
  rfl

/-- **Digits are read from the left.** -/
theorem largeDigits_eq : ∀ {cs : List Char} {acc : Nat}, (∀ c ∈ cs, c.isDigit = true) →
    largeDigits acc cs = .ok (Nat.ofDigitChars 10 cs acc)
  | [], _, _ => by rw [largeDigits, Nat.ofDigitChars_nil]
  | c :: cs, acc, h => by
    have hc : c.isDigit = true := h c List.mem_cons_self
    have hne : c ≠ '_' := by
      rintro rfl
      revert hc
      decide
    rw [largeDigits, digit?_of_isDigit hc, Nat.ofDigitChars_cons, Nat.mul_comm]
    · exact largeDigits_eq fun d hd => h d (List.mem_cons_of_mem _ hd)
    · exact hne

/-- **What is written is read back.** -/
theorem large_toString (n : Nat) : large (toString n) = .ok n := by
  have hlist : (toString n).toList = Nat.toDigits 10 n := by
    rw [Nat.toString_eq_repr, Nat.toList_repr]
  have hdigits : ∀ c ∈ Nat.toDigits 10 n, c.isDigit = true := fun c hc =>
    Nat.isDigit_of_mem_toDigits (by decide) (by decide) hc
  have hread : largeDigits 0 (Nat.toDigits 10 n) = .ok n := by
    rw [largeDigits_eq hdigits, Nat.ofDigitChars_ten_toDigits]
  unfold large
  rw [hlist]
  rcases hcs : Nat.toDigits 10 n with _ | ⟨c, cs⟩
  · exact absurd hcs Nat.toDigits_ne_nil
  · rw [hcs] at hread hdigits
    have hc : c.isDigit = true := hdigits c List.mem_cons_self
    have hplus : c ≠ '+' := by
      rintro rfl
      revert hc
      decide
    have hunder : c ≠ '_' := by
      rintro rfl
      revert hc
      decide
    split <;> simp_all

/-! ## Bounds -/

/-- No digit takes the value above the bound. -/
theorem digits_le {radix bound : Nat} {excess : Flaw} : ∀ {cs : List Char} {acc n : Nat}, acc ≤ bound →
    digits radix bound excess acc cs = .ok n → n ≤ bound
  | [], _, _, hacc, h => by
    cases h
    exact hacc
  | c :: cs, acc, n, _, h => by
    rw [digits] at h
    split at h
    · cases h
    · split at h
      · rename_i hle
        exact digits_le hle h
      · cases h

/-- **An integer that is read lies within its bounds.** -/
theorem integer_bounds {below above : Nat} {s : String} {i : Int} (h : integer below above s = .ok i) :
    -(below : Int) ≤ i ∧ i ≤ above := by
  have hread : ∀ {bound : Nat} {excess : Flaw} {cs : List Char} {f : Int → Int},
      Except.map f (digits 10 bound excess 0 cs >>= fun n => pure (n : Int)) = .ok i →
        ∃ n ≤ bound, f (n : Int) = i := by
    intro bound excess cs f hmap
    rcases hd : digits 10 bound excess 0 cs with why | n <;> rw [hd] at hmap <;> cases hmap
    exact ⟨n, digits_le (Nat.zero_le _) hd, rfl⟩
  unfold integer at h
  split at h <;> try cases h
  all_goals
    obtain ⟨n, hn, rfl⟩ := hread h
    omega

end StakeTrail.Text.Numeral
