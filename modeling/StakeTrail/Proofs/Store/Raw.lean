import Mathlib
import StakeTrail.Proofs.Indexing.Recorded

/-!
# Tables that hold each height once

A `Raw` table holds rows that were read off the chain height by height: the key of a row determines it, and its height.
`Raw.Stored` says that a table holds exactly the rows of the heights up to some height, all of which could be read.
A batch that leaves no gap keeps this, whatever heights it writes again (`Raw.Stored.putAll`).
-/

namespace StakeTrail.Store

open StakeTrail.Action Database

/-- **What a table is to hold** of each height, and which heights can be read at all. -/
structure Raw (ρ κ : Type) where
  key : ρ → κ
  readable : Nat → Prop
  rows : Nat → List ρ
  nodup : ∀ h, ((rows h).map key).Nodup
  apart : ∀ {h k a b}, a ∈ rows h → b ∈ rows k → key a = key b → h = k

namespace Raw

variable {ρ κ : Type} {raw : Raw ρ κ} {C first last : Nat} {l batch : List ρ}

/-- The key of a row determines it. -/
theorem eq_of_key {h k : Nat} {a b : ρ} (ha : a ∈ raw.rows h) (hb : b ∈ raw.rows k) (hkey : raw.key a = raw.key b) :
    a = b := by
  have hk := raw.apart ha hb hkey
  subst hk
  exact List.inj_on_of_nodup_map (raw.nodup h) ha hb hkey

/-- The rows of a range of heights, all of which could be read. -/
structure Reads (raw : Raw ρ κ) (first last : Nat) (l : List ρ) : Prop where
  readable : ∀ h, first ≤ h → h ≤ last → raw.readable h
  mem : ∀ r, r ∈ l ↔ ∃ h, first ≤ h ∧ h ≤ last ∧ r ∈ raw.rows h

/-- **What a table holds** that has all rows of the heights up to `C`, each once. -/
structure Stored (raw : Raw ρ κ) (C : Nat) (l : List ρ) : Prop extends Reads raw 1 C l where
  nodup : (l.map raw.key).Nodup

protected theorem Stored.nil (raw : Raw ρ κ) : Stored raw 0 [] where
  readable h h₁ h₂ := by omega
  mem r := ⟨by simp, fun ⟨h, h₁, h₂, _⟩ => by omega⟩
  nodup := List.nodup_nil

/-- **A batch that leaves no gap** stores the heights up to its end. -/
theorem Stored.putAll [DecidableEq κ] (hs : raw.Stored C l) (hr : raw.Reads first last batch) (h₁ : 1 ≤ first)
    (hfirst : first ≤ C + 1) : raw.Stored (max C last) (Keyed.putAll raw.key batch l) := by
  have hfound : ∀ a ∈ l ++ batch, ∃ h, a ∈ raw.rows h := by
    intro a ha
    rcases List.mem_append.mp ha with ha | ha
    · obtain ⟨h, -, -, ha⟩ := (hs.mem a).mp ha
      exact ⟨h, ha⟩
    · obtain ⟨h, -, -, ha⟩ := (hr.mem a).mp ha
      exact ⟨h, ha⟩
  have hput : ∀ r, r ∈ Keyed.putAll raw.key batch l ↔ r ∈ l ∨ r ∈ batch := by
    intro r
    refine Keyed.mem_putAll_of_agree fun a ha b hb hkey => ?_
    obtain ⟨h, ha⟩ := hfound a ha
    obtain ⟨k, hb⟩ := hfound b hb
    exact eq_of_key ha hb hkey
  refine ⟨⟨fun h h₁ h₂ => ?_, fun r => ?_⟩, Keyed.nodup_putAll hs.nodup⟩
  · by_cases hC : h ≤ C
    · exact hs.readable h h₁ hC
    · exact hr.readable h (by omega) (by omega)
  · rw [hput, hs.mem, hr.mem]
    constructor
    · rintro (⟨h, h₂, h₃, hm⟩ | ⟨h, h₂, h₃, hm⟩)
      · exact ⟨h, h₂, by omega, hm⟩
      · exact ⟨h, by omega, by omega, hm⟩
    · rintro ⟨h, h₂, h₃, hm⟩
      by_cases hC : h ≤ C
      · exact .inl ⟨h, h₂, hC, hm⟩
      · exact .inr ⟨h, by omega, by omega, hm⟩

/-- **A stored table** holds the rows of its heights and no others, each once. -/
theorem Stored.perm (hs : raw.Stored C l) : l.Perm ((List.range' 1 C).flatMap raw.rows) := by
  have hrows : ((List.range' 1 C).flatMap raw.rows).Nodup := by
    refine List.nodup_flatMap.mpr ⟨fun h _ => (raw.nodup h).of_map _, ?_⟩
    refine (List.nodup_range' (s := 1) (n := C)).imp fun hne => ?_
    rw [Function.onFun, List.disjoint_left]
    exact fun a ha hb => hne (raw.apart ha hb rfl)
  refine (List.perm_ext_iff_of_nodup (hs.nodup.of_map _) hrows).mpr fun r => ?_
  rw [hs.mem, List.mem_flatMap]
  constructor
  · rintro ⟨h, h₁, h₂, hm⟩
    exact ⟨h, List.mem_range'_1.mpr ⟨h₁, by omega⟩, hm⟩
  · rintro ⟨h, hh, hm⟩
    obtain ⟨h₁, h₂⟩ := List.mem_range'_1.mp hh
    exact ⟨h, h₁, by omega, hm⟩

/-- A height that cannot be read is never reached. -/
theorem Stored.lt_of_unreadable (hs : raw.Stored C l) {h : Nat} (h₁ : 1 ≤ h) (hh : ¬ raw.readable h) : C < h := by
  by_contra hC
  exact hh (hs.readable h h₁ (by omega))

end Raw

end StakeTrail.Store
