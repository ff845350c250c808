import Mathlib
import StakeTrail.Abi.Basic

/-!
# Contract data is read back

Values that belong to their types are read back from what is written of them (`decode?_encode`), as long as the
places of the tails can be written in a word.

A value contributes one word and, if its size varies, a tail (`Value.head`, `Value.tail`; `encodeAt_cons`). Reading
takes both away again and moves the place of the next tail behind this one (`value?_eq`), which carries the induction
over the values (`decodeAt?_encodeAt`).
-/

namespace StakeTrail

/-! ## Numbers -/

namespace Curve

@[simp] theorem length_numberBytes : ∀ n v : Nat, (numberBytes n v).length = n
  | 0, _ => rfl
  | n + 1, v => by rw [numberBytes, List.length_append, length_numberBytes n, List.length_singleton]

theorem number_append (bytes : Bytes) (b : UInt8) : number (bytes ++ [b]) = 256 * number bytes + b.toNat := by
  rw [number, List.foldl_append]
  rfl

/-- **The bytes of a number spell it**, as far as they reach. -/
theorem number_numberBytes : ∀ n v : Nat, number (numberBytes n v) = v % 256 ^ n
  | 0, v => by
    rw [Nat.pow_zero, Nat.mod_one]
    rfl
  | n + 1, v => by
    have hbyte : (UInt8.ofNat (v % 256)).toNat = v % 256 := by
      rw [UInt8.toNat_ofNat', Nat.mod_mod]
    calc number (numberBytes (n + 1) v)
        = 256 * (v / 256 % 256 ^ n) + v % 256 := by
          rw [numberBytes, number_append, number_numberBytes n, hbyte]
      _ = v % (256 * 256 ^ n) := by rw [Nat.mod_mul, Nat.add_comm]
      _ = v % 256 ^ (n + 1) := by rw [Nat.pow_succ, Nat.mul_comm]

end Curve

namespace Abi

/-! ## Words and tails -/

@[simp] theorem length_numberWord (n : Nat) : (numberWord n).length = 32 := Curve.length_numberBytes 32 n

theorem number_numberWord {n : Nat} (h : n < 2 ^ 256) : Curve.number (numberWord n) = n := by
  have hword : 256 ^ 32 = 2 ^ 256 := by norm_num
  rw [numberWord, Curve.number_numberBytes, hword, Nat.mod_eq_of_lt h]

theorem le_padded (n : Nat) : n ≤ padded n := by
  unfold padded
  omega

theorem length_tailOf (content : Bytes) : (tailOf content).length = 32 + padded content.length := by
  have hle := le_padded content.length
  rw [tailOf, List.length_append, List.length_append, length_numberWord, List.length_replicate]
  omega

/-- **A tail is read back**, and what follows it is left. -/
theorem tail?_tailOf {content : Bytes} (h : content.length < 2 ^ 256) (rest : Bytes) :
    tail? (tailOf content ++ rest) = some (content, rest) := by
  let fill : Bytes := List.replicate (padded content.length - content.length) 0
  have hle := le_padded content.length
  have hshape : tailOf content ++ rest = numberWord content.length ++ (content ++ (fill ++ rest)) := by
    simp [tailOf, fill]
  have hlength : Curve.number ((tailOf content ++ rest).take 32) = content.length := by
    rw [hshape, List.take_left' (length_numberWord _), number_numberWord h]
  have hbody : (tailOf content ++ rest).drop 32 = content ++ (fill ++ rest) := by
    rw [hshape, List.drop_left' (length_numberWord _)]
  have hblock : (content ++ fill).length = padded content.length := by
    simp only [fill, List.length_append, List.length_replicate]
    omega
  have hlong : ¬((tailOf content ++ rest).length < 32 ∨
      ((tailOf content ++ rest).drop 32).length < padded content.length) := by
    rw [hbody, ← List.append_assoc, List.length_append, List.length_append, hblock, length_tailOf]
    omega
  have htaken : (content ++ (fill ++ rest)).take (padded content.length) = content ++ fill := by
    rw [← List.append_assoc, List.take_left' hblock]
  have hzeros : fill.any (· != 0) = false := by
    rw [List.any_eq_false]
    intro b hb
    simp [List.eq_of_mem_replicate hb]
  unfold tail?
  simp only [hlength]
  rw [if_neg hlong, hbody, htaken, List.drop_left' rfl, hzeros, List.take_left' rfl, ← List.append_assoc,
    List.drop_left' hblock]
  rfl

/-! ## One value -/

/-- A value of a type that a word can tell the size of. -/
inductive Typed : Value → Ty → Prop
  | address {b : Bytes} : b.length = 20 → Typed (.address b) .address
  | word {b : Bytes} : b.length = 32 → Typed (.word b) .word
  | uint {n bits : Nat} : bits ≤ 256 → n < 2 ^ bits → Typed (.uint n) (.uint bits)
  | bytes {content : Bytes} : content.length < 2 ^ 256 → Typed (.bytes content) .bytes
  | string {content : Bytes} : content.length < 2 ^ 256 → isText content = true → Typed (.string content) .string

/-- A type that fits into words: its numbers have 256 bits at most. -/
def Ty.fits : Ty → Bool
  | .uint bits => decide (bits ≤ 256)
  | _ => true

theorem typed_of_belongs {v : Value} {ty : Ty} (h : v.belongs ty = true) (hfits : ty.fits = true) : Typed v ty := by
  cases v <;> cases ty <;> simp only [Value.belongs, Ty.fits, Bool.false_eq_true, Bool.and_eq_true, beq_iff_eq,
    decide_eq_true_eq, Nat.one_shiftLeft] at h hfits
  · exact .address h
  · exact .word h
  · exact .uint hfits h
  · exact .bytes h
  · exact .string h.1 h.2

theorem typed_of_forall_belongs {values : List Value} {types : List Ty}
    (h : List.Forall₂ (fun v ty => v.belongs ty = true) values types) (hfits : ∀ ty ∈ types, ty.fits = true) :
    List.Forall₂ Typed values types := by
  induction h with
  | nil => exact .nil
  | cons hv _ ih =>
    obtain ⟨hty, hrest⟩ := List.forall_mem_cons.mp hfits
    exact .cons (typed_of_belongs hv hty) (ih hrest)

namespace Value

/-- The word of a value whose tail, if it has one, stands at `offset`. -/
def head (offset : Nat) : Value → Bytes
  | .address b => List.replicate 12 0 ++ b
  | .word b => b
  | .uint n => numberWord n
  | .bytes _ | .string _ => numberWord offset

/-- The tail of a value. -/
def tail : Value → Bytes
  | .address _ | .word _ | .uint _ => []
  | .bytes content | .string content => tailOf content

theorem length_head {v : Value} {ty : Ty} (h : Typed v ty) (offset : Nat) : (v.head offset).length = 32 := by
  cases h <;> simp_all [head]

end Value

theorem encodeAt_cons (offset : Nat) (v : Value) (rest : List Value) :
    encodeAt offset (v :: rest) =
      (v.head offset ++ (encodeAt (offset + v.tail.length) rest).1,
        v.tail ++ (encodeAt (offset + v.tail.length) rest).2) := by
  cases v <;> simp [encodeAt, Value.head, Value.tail]

/-- A tail that begins within the addressable data has a place that a word can tell. -/
theorem number_place {content : Bytes} {offset : Nat} (h : offset + (tailOf content).length ≤ 2 ^ 256) :
    Curve.number (numberWord offset) = offset := by
  rw [length_tailOf] at h
  exact number_numberWord (by omega)

/-- **A value is read back** from its word and its tail, and what follows the tail is left. -/
theorem value?_eq {v : Value} {ty : Ty} (h : Typed v ty) {offset : Nat} (hplace : offset + v.tail.length ≤ 2 ^ 256)
    (rest : Bytes) :
    value? ty offset (v.head offset) (v.tail ++ rest) = some (v, offset + v.tail.length, rest) := by
  cases h with
  | address hlength => simp [value?, Value.head, Value.tail]
  | word hlength => rfl
  | uint hbits hlt =>
    rename_i n bits
    have hword : n < 2 ^ 256 := lt_of_lt_of_le hlt (Nat.pow_le_pow_right (by decide) hbits)
    simp only [value?, Value.head, Value.tail, number_numberWord hword, Nat.one_shiftLeft]
    rw [if_pos hlt]
    rfl
  | bytes hlength => simp [value?, Value.head, Value.tail, number_place hplace, tail?_tailOf hlength]
  | string hlength htext => simp [value?, Value.head, Value.tail, number_place hplace, tail?_tailOf hlength, htext]

/-! ## All values -/

theorem length_heads {values : List Value} {types : List Ty} (h : List.Forall₂ Typed values types) (offset : Nat) :
    (encodeAt offset values).1.length = 32 * values.length := by
  induction h generalizing offset with
  | nil => rfl
  | cons hv _ ih =>
    rw [encodeAt_cons, List.length_append, Value.length_head hv, ih, List.length_cons]
    omega

/-- **Values are read back**: the induction goes over the values, each of which moves the place of the next tail. -/
theorem decodeAt?_encodeAt {values : List Value} {types : List Ty} (h : List.Forall₂ Typed values types)
    {offset : Nat} (hplace : offset + (encodeAt offset values).2.length ≤ 2 ^ 256) :
    decodeAt? offset (encodeAt offset values).1 (encodeAt offset values).2 types = some values := by
  induction h generalizing offset with
  | nil => rfl
  | @cons v ty values types hv _ ih =>
    have hhead := Value.length_head hv offset
    rw [encodeAt_cons] at hplace ⊢
    simp only [List.length_append] at hplace
    have hlong : ¬(v.head offset ++ (encodeAt (offset + v.tail.length) values).1).length < 32 := by
      rw [List.length_append]
      omega
    have hvalue : value? ty offset (v.head offset) (v.tail ++ (encodeAt (offset + v.tail.length) values).2) =
        some (v, offset + v.tail.length, (encodeAt (offset + v.tail.length) values).2) :=
      value?_eq hv (by omega) _
    have hrest : decodeAt? (offset + v.tail.length) (encodeAt (offset + v.tail.length) values).1
        (encodeAt (offset + v.tail.length) values).2 types = some values := ih (by omega)
    simp only [decodeAt?]
    rw [if_neg hlong, List.take_left' hhead, List.drop_left' hhead, hvalue]
    simp only [hrest, Option.map_some]

/-- **What is written is read back**, whatever the values and however long, if the data fits into its address space. -/
theorem decode?_encode {values : List Value} {types : List Ty} (h : List.Forall₂ Typed values types)
    (hsize : (encode values).length ≤ 2 ^ 256) : decode? types (encode values) = some values := by
  have hheads := length_heads h (32 * values.length)
  have hcount : values.length = types.length := h.length_eq
  have hplace : 32 * values.length + (encodeAt (32 * values.length) values).2.length ≤ 2 ^ 256 := by
    have hsplit : (encode values).length =
        (encodeAt (32 * values.length) values).1.length + (encodeAt (32 * values.length) values).2.length :=
      List.length_append
    omega
  unfold decode? encode
  simp only
  rw [← hcount, List.take_left' hheads, List.drop_left' hheads]
  exact decodeAt?_encodeAt h hplace

end Abi

end StakeTrail
