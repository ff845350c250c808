import Mathlib
import StakeTrail.Text.Numeral

/-!
# Numerals and their values

`Stands`, `Denotes` and `Writes` say what a digit, a list of digits and a numeral mean in a radix up to sixteen. They do
not read: the value of a list of digits is that of `Nat.ofDigits`, for which the least digit comes first.

* Digits that are read one after the other come to their value, or are refused if it is above the bound (`digits_eq`).
* **A numeral is read just if its value lies within the bound** (`natural_eq_ok_iff`), and nothing else is.
* The digits that a number is written with denote it (`denotes_toDigits`), also after any number of zeros
  (`Denotes.zeros`).
-/

namespace StakeTrail.Text.Numeral

variable {radix bound n v : Nat} {excess : Flaw} {c : Char} {cs : List Char} {s : String}

/-! ## What digits denote -/

/-- A digit and its value; a letter may stand in either case. -/
def Stands (radix : Nat) (c : Char) (v : Nat) : Prop :=
  v < radix ∧ (c = Nat.digitChar v ∨ c = (Nat.digitChar v).toUpper)

/-- **Digits and the number they denote**, the greatest digit first. -/
def Denotes (radix : Nat) (cs : List Char) (n : Nat) : Prop :=
  cs ≠ [] ∧ ∃ ds, List.Forall₂ (Stands radix) cs ds ∧ n = Nat.ofDigits radix ds.reverse

/-- **A numeral and its value**: digits, with a plus sign before them or without. -/
def Writes (radix : Nat) (s : String) (n : Nat) : Prop :=
  ∃ sign ∈ [[], ['+']], ∃ cs, Denotes radix cs n ∧ s.toList = sign ++ cs

theorem Stands.digit?_eq (h : Stands radix c v) (hhigh : radix ≤ 16) : digit? radix c = some v := by
  obtain ⟨hv, hc⟩ := h
  have hvalue : digit? 16 c = some v := by
    have : v < 16 := by omega
    interval_cases v <;> rcases hc with rfl | rfl <;> rfl
  obtain ⟨hvalue, -⟩ := Option.filter_eq_some_iff.mp hvalue
  exact Option.filter_eq_some_iff.mpr ⟨hvalue, decide_eq_true hv⟩

theorem stands_of_digit? (h : digit? radix c = some v) : Stands radix c v := by
  obtain ⟨hvalue, hv⟩ := Option.filter_eq_some_iff.mp h
  refine ⟨of_decide_eq_true hv, ?_⟩
  have hc : c = Char.ofNat c.toNat := (Char.ofNat_toNat c).symm
  rw [hc]
  generalize c.toNat = code at hvalue
  split_ifs at hvalue with hdigit hlower hupper <;> cases hvalue
  · obtain ⟨hfirst, hlast⟩ := hdigit
    left
    interval_cases code <;> rfl
  · obtain ⟨hfirst, hlast⟩ := hlower
    left
    interval_cases code <;> rfl
  · obtain ⟨hfirst, hlast⟩ := hupper
    right
    interval_cases code <;> rfl

/-- What denotes a number are digits. -/
theorem Denotes.stands (h : Denotes radix cs n) : ∀ c ∈ cs, ∃ v, Stands radix c v := by
  obtain ⟨-, ds, hds, -⟩ := h
  induction hds with
  | nil => simp
  | cons hd _ ih =>
    intro c hc
    rcases List.mem_cons.mp hc with rfl | hc
    · exact ⟨_, hd⟩
    · exact ih c hc

/-! ## Writing digits -/

/-- A digit after others. -/
theorem Denotes.concat (h : Denotes radix cs n) (hc : Stands radix c v) :
    Denotes radix (cs ++ [c]) (radix * n + v) := by
  obtain ⟨-, ds, hds, rfl⟩ := h
  refine ⟨by simp, ds ++ [v], List.rel_append hds (.cons hc .nil), ?_⟩
  rw [List.reverse_append, List.reverse_singleton, List.singleton_append, Nat.ofDigits_cons, Nat.add_comm]

/-- **A number is denoted by the digits it is written with.** -/
theorem denotes_toDigits (hradix : 1 < radix) (n : Nat) : Denotes radix (Nat.toDigits radix n) n := by
  induction n using Nat.strongRecOn with
  | ind n ih =>
    rcases Nat.lt_or_ge n radix with hlt | hge
    · rw [Nat.toDigits_of_lt_base hlt]
      exact ⟨by simp, [n], .cons ⟨hlt, .inl rfl⟩ .nil, by simp⟩
    · have hlast : Stands radix (Nat.digitChar (n % radix)) (n % radix) := ⟨Nat.mod_lt n (by omega), .inl rfl⟩
      have hall := (ih (n / radix) (Nat.div_lt_self (by omega) hradix)).concat hlast
      rwa [Nat.div_add_mod, ← Nat.toDigits_of_base_le hradix hge] at hall

/-- **Zeros before a number** do not change it. -/
theorem Denotes.zeros (hlow : 1 ≤ radix) (h : Denotes radix cs n) :
    ∀ k, Denotes radix (List.replicate k '0' ++ cs) n
  | 0 => h
  | k + 1 => by
    obtain ⟨-, ds, hds, hn⟩ := h.zeros hlow k
    have hzero : Stands radix '0' 0 := ⟨hlow, .inl rfl⟩
    rw [List.replicate_succ, List.cons_append]
    exact ⟨List.cons_ne_nil _ _, 0 :: ds, .cons hzero hds, hn.trans (Nat.ofDigits_reverse_zero_cons ds).symm⟩

/-! ## Reading digits -/

/-- The value of digits that continue a value. -/
def valueFrom (radix : Nat) : Nat → List Nat → Nat := List.foldl fun acc d => acc * radix + d

theorem valueFrom_zero (radix : Nat) (ds : List Nat) : valueFrom radix 0 ds = Nat.ofDigits radix ds.reverse := by
  have hstep : (fun acc d => acc * radix + d) = fun acc d => d + radix * acc := by
    funext acc d
    rw [Nat.mul_comm, Nat.add_comm]
  rw [Nat.ofDigits_eq_foldr, List.foldr_reverse, valueFrom, hstep]
  rfl

/-- Nothing but digits is read. -/
theorem forall₂_of_digits : ∀ {cs : List Char} {acc : Nat}, digits radix bound excess acc cs = .ok n →
    ∃ ds, List.Forall₂ (Stands radix) cs ds
  | [], _, _ => ⟨[], .nil⟩
  | c :: cs, acc, h => by
    rw [digits] at h
    rcases hd : digit? radix c with _ | d
    · rw [hd] at h
      cases h
    · rw [hd] at h
      dsimp only at h
      split at h
      · obtain ⟨ds, hds⟩ := forall₂_of_digits h
        exact ⟨d :: ds, .cons (stands_of_digit? hd) hds⟩
      · cases h

section Reading

variable (hlow : 1 ≤ radix)
include hlow

/-- A value only grows. -/
theorem le_valueFrom : ∀ (ds : List Nat) (acc : Nat), acc ≤ valueFrom radix acc ds
  | [], _ => le_rfl
  | d :: ds, acc => by
    have hstep : acc ≤ acc * radix + d := (Nat.le_mul_of_pos_right acc hlow).trans (Nat.le_add_right _ _)
    exact hstep.trans (le_valueFrom ds _)

variable (hhigh : radix ≤ 16)
include hhigh

/-- **Digits are read to their value.** Once the value is above the bound, it stays there. -/
theorem digits_eq : ∀ {cs : List Char} {ds : List Nat} {acc : Nat}, List.Forall₂ (Stands radix) cs ds →
    acc ≤ bound → digits radix bound excess acc cs =
      if valueFrom radix acc ds ≤ bound then .ok (valueFrom radix acc ds) else .error excess
  | [], _, acc, .nil, hacc => (if_pos hacc).symm
  | c :: cs, d :: ds, acc, .cons hd hds, _ => by
    rw [digits, hd.digit?_eq hhigh]
    by_cases hle : acc * radix + d ≤ bound
    · exact (if_pos hle).trans (digits_eq hds hle)
    · have hvalue : acc * radix + d ≤ valueFrom radix acc (d :: ds) := le_valueFrom hlow ds _
      rw [if_neg (by omega)]
      exact if_neg hle

theorem Denotes.digits_eq (h : Denotes radix cs n) :
    digits radix bound excess 0 cs = if n ≤ bound then .ok n else .error excess := by
  obtain ⟨-, ds, hds, rfl⟩ := h
  rw [Numeral.digits_eq hlow hhigh hds (Nat.zero_le _), valueFrom_zero]

theorem denotes_of_digits (hne : cs ≠ []) (h : digits radix bound excess 0 cs = .ok n) : Denotes radix cs n := by
  obtain ⟨ds, hds⟩ := forall₂_of_digits h
  have hdenotes : Denotes radix cs (Nat.ofDigits radix ds.reverse) := ⟨hne, ds, hds, rfl⟩
  rw [hdenotes.digits_eq hlow hhigh] at h
  split at h
  · cases h
    exact hdenotes
  · cases h

/-! ## Reading numerals -/

/-- **A numeral is read as its value**, or refused if that is too large. -/
theorem Writes.natural_eq (h : Writes radix s n) :
    natural radix bound s = if n ≤ bound then .ok n else .error .tooLarge := by
  obtain ⟨sign, hsign, cs, hdenotes, hlist⟩ := h
  obtain ⟨c, rest, rfl⟩ := List.exists_cons_of_ne_nil hdenotes.1
  simp only [List.mem_cons, List.not_mem_nil, or_false] at hsign
  unfold natural
  rw [hlist]
  rcases hsign with rfl | rfl
  · have hplus : c ≠ '+' := by
      rintro rfl
      obtain ⟨v, hv⟩ := hdenotes.stands '+' List.mem_cons_self
      cases hv.digit?_eq hhigh
    rw [List.nil_append]
    split
    · contradiction
    · rename_i heq
      exact absurd (List.cons.inj heq).1 hplus
    · rename_i heq
      exact absurd (List.cons.inj heq).1 hplus
    · exact hdenotes.digits_eq hlow hhigh
  · exact hdenotes.digits_eq hlow hhigh

/-- **What is read is a numeral.** -/
theorem writes_of_natural (h : natural radix bound s = .ok n) : Writes radix s n := by
  unfold natural at h
  split at h
  · cases h
  · cases h
  · rename_i rest hne hlist
    exact ⟨['+'], by simp, rest, denotes_of_digits hlow hhigh hne h, hlist⟩
  · rename_i hne _ _
    exact ⟨[], by simp, s.toList, denotes_of_digits hlow hhigh hne h, rfl⟩

/-- **A numeral is read just if its value lies within the bound.** -/
theorem natural_eq_ok_iff : natural radix bound s = .ok n ↔ Writes radix s n ∧ n ≤ bound := by
  constructor
  · intro h
    have hwrites := writes_of_natural hlow hhigh h
    rw [hwrites.natural_eq hlow hhigh] at h
    split at h
    · exact ⟨hwrites, by assumption⟩
    · cases h
  · rintro ⟨hwrites, hle⟩
    rw [hwrites.natural_eq hlow hhigh, if_pos hle]

end Reading

end StakeTrail.Text.Numeral
