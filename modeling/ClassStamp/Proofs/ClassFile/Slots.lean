import ClassStamp.Proofs.ClassFile.Coding

/-!
# The slots of a constant pool

A constant of eight bytes takes a second slot that holds nothing. In a pool
that was read, or built by adding constants, a slot holds nothing only for
that reason (`ConstantPool.Paired`), so that the slots are those of a list of
constants.

* `encode_slots`, `encode_slots_of`: the bytes of the slots are those of the
  constants;
* `reads_slots`: the reader finds exactly the slots that were written, as its
  index keeps step with their number;
* `slots_taken`: what it took for the slots, and how many slots it stored for
  a declared count. That is one too many if a constant of eight bytes begins
  in the last declared slot.
-/

namespace ClassStamp

open Decoder

theorem Constant.length_slots (x : Constant) : x.slots.length = if x.isWide then 2 else 1 := by
  unfold Constant.slots
  split <;> rfl

theorem Constant.length_slots_pos (x : Constant) : 0 < x.slots.length := by
  rw [Constant.length_slots]
  split <;> decide

namespace ConstantPool

/-- The slots are those of a list of constants. -/
def Paired (p : ConstantPool) : Prop :=
  ∃ xs : List Constant, p.slots.toList = xs.flatMap Constant.slots

theorem paired_empty : Paired .empty := ⟨[], rfl⟩

/-- The bytes of constants are those of their slots. -/
theorem encode_slots {xs : List Constant} {parts : List Bytes} :
    Encodes encodeSlot (xs.flatMap Constant.slots) parts →
      ∃ parts', Encodes Constant.encode xs parts' ∧
        parts'.flatten = parts.flatten := by
  intro h
  induction xs generalizing parts with
  | nil => cases h; exact ⟨[], .nil, rfl⟩
  | cons x xs ih =>
    rw [List.flatMap_cons] at h
    unfold Constant.slots at h
    split at h
    · cases h with | cons hx h =>
      cases h with | cons hnone h =>
      obtain ⟨parts', hp, he⟩ := ih h
      cases hnone
      exact ⟨_ :: parts', .cons hx hp, by simp [he]⟩
    · cases h with | cons hx h =>
      obtain ⟨parts', hp, he⟩ := ih h
      exact ⟨_ :: parts', .cons hx hp, by simp [he]⟩

theorem encode_slots_of {xs : List Constant} {parts : List Bytes}
    (h : Encodes Constant.encode xs parts) :
    ∃ parts', Encodes encodeSlot (xs.flatMap Constant.slots) parts' ∧
      parts'.flatten = parts.flatten := by
  induction h with
  | nil => exact ⟨[], .nil, rfl⟩
  | @cons x bytes xs parts hx _ ih =>
    obtain ⟨parts', hp, he⟩ := ih
    rw [List.flatMap_cons]
    unfold Constant.slots
    split
    · exact ⟨bytes :: [] :: parts', .cons hx (.cons rfl hp), by simp [he]⟩
    · exact ⟨bytes :: parts', .cons hx hp, by simp [he]⟩

/-! ## Reading slots -/

theorem readSlots_of_le {count index : Nat} (h : count ≤ index) :
    readSlots count index = pure [] := by
  rw [readSlots, dif_neg (by omega)]

theorem readSlots_of_lt {count index : Nat} (h : index < count) :
    readSlots count index = (do
      let x ← Constant.read index
      let rest ← readSlots count (index + x.slots.length)
      return x.slots ++ rest) := by
  rw [readSlots, dif_pos h]

/-- The reader finds the slots that were written, if their number is the one
declared. -/
theorem reads_slots {xs : List Constant} {parts : List Bytes}
    (h : Encodes Constant.encode xs parts)
    {count index : Nat} (hn : index + (xs.flatMap Constant.slots).length = count) :
    Reads (readSlots count index) (xs.flatMap Constant.slots) parts.flatten := by
  induction h generalizing index with
  | nil =>
    rw [readSlots_of_le (by simp at hn; omega)]
    exact reads_pure _
  | @cons x bytes xs parts hx _ ih =>
    rw [List.flatMap_cons, List.length_append] at hn
    have hpos := x.length_slots_pos
    rw [readSlots_of_lt (by omega), List.flatMap_cons]
    exact (reads_constant index hx).bind ((ih (by omega)).map (x.slots ++ ·))

/-- How the number of slots that were stored for the declared ones from
`index` on can be: as declared, or one more behind a constant of eight bytes
that begins in the last declared one. -/
def Filled (count index : Nat) (xs : List Constant) : Prop :=
  index + (xs.flatMap Constant.slots).length = count ∨
    index + (xs.flatMap Constant.slots).length = count + 1 ∧
      ∃ first last, xs = first ++ [last] ∧ last.isWide = true

theorem slots_taken {count index : Nat} {c c' : Cursor} {slots : List (Option Constant)}
    (h : readSlots count index c = .ok (slots, c')) :
    ∃ xs parts, slots = xs.flatMap Constant.slots ∧
      Encodes Constant.encode xs parts ∧
      c.rest = parts.flatten ++ c'.rest ∧
      (count < index ∧ xs = [] ∨ Filled count index xs) := by
  by_cases hlt : index < count
  · rw [readSlots_of_lt hlt] at h
    obtain ⟨x, c₁, hx, h⟩ := bind_eq_ok h
    obtain ⟨rest, c₂, hrest, h⟩ := bind_eq_ok h
    cases h
    obtain ⟨bytes, hbytes, hc⟩ := constant_taken hx
    obtain ⟨xs, parts, rfl, hp, hc₁, hfill⟩ := slots_taken hrest
    refine ⟨x :: xs, bytes :: parts, rfl, .cons hbytes hp, ?_, .inr ?_⟩
    · rw [hc, hc₁, List.flatten_cons, List.append_assoc]
    unfold Filled at hfill ⊢
    rw [List.flatMap_cons, List.length_append, ← Nat.add_assoc]
    rcases hfill with ⟨hover, rfl⟩ | hfull | ⟨hover, first, last, rfl, hlast⟩
    · have hx := x.length_slots
      refine .inr ⟨?_, [], x, rfl, ?_⟩
      · split at hx <;> simp <;> omega
      · by_contra hw
        rw [if_neg hw] at hx
        omega
    · exact .inl hfull
    · exact .inr ⟨hover, x :: first, last, rfl, hlast⟩
  · rw [readSlots_of_le (by omega)] at h
    cases h
    refine ⟨[], [], rfl, .nil, rfl, ?_⟩
    rcases Nat.lt_or_eq_of_le (Nat.le_of_not_lt hlt) with h | h
    · exact .inl ⟨h, rfl⟩
    · exact .inr (.inl (by simpa using h.symm))
termination_by count - index
decreasing_by
  have := x.length_slots_pos
  omega

/-- However a pool was filled, it has no more slots than the largest count. -/
theorem length_le_of_filled {count : UInt16} {xs : List Constant}
    (h : count.toNat < 1 ∧ xs = [] ∨ Filled count.toNat 1 xs) :
    (xs.flatMap Constant.slots).length ≤ maxCount := by
  have hlt := count.toNat_lt
  unfold maxCount
  rcases h with ⟨-, rfl⟩ | hfull | ⟨hover, -⟩
  · simp
  · omega
  · omega

end ConstantPool

end ClassStamp
