import ClassStamp.Proofs.ClassFile.RoundTrip

/-!
# Writing what was read

A class file that was read and not edited is written as the same bytes, with
two exceptions, both of which concern the declared count of the constant pool
only: a declared count of zero is written as one, and a count is written one
higher if a constant of eight bytes begins in the last declared slot.

* `toBytes_of_parts`: the bytes differ in the count at most;
* `count_of_parts`: the count that is written, from the one that was read;
* `toBytes_of_parse`: both, for every byte string that is read as a class
  file.
-/

namespace ClassStamp

namespace ClassFile

/-- The declared count of the constant pool in the bytes of a class file. -/
def declaredCount (input : Bytes) : UInt16 := Bytes.toUInt16 (input.getD 8 0) (input.getD 9 0)

/-- The bytes of a class file with another declared count. -/
def withDeclaredCount (input : Bytes) (count : UInt16) : Bytes :=
  input.take 8 ++ Bytes.ofUInt16 count ++ input.drop 10

/-- A constant of eight bytes begins in the last slot of the declared ones. -/
def Overhangs (c : ClassFile) (count : UInt16) : Prop :=
  ∃ x, c.pool.get? (count - 1) = some x ∧ x.isWide = true

instance (c : ClassFile) (count : UInt16) : Decidable (c.Overhangs count) :=
  match h : c.pool.get? (count - 1) with
  | none => isFalse fun ⟨_, hx, _⟩ => by rw [h] at hx; cases hx
  | some x =>
    if hw : x.isWide = true then isTrue ⟨x, h, hw⟩
    else isFalse fun ⟨_, hx, hw'⟩ => by rw [h] at hx; cases hx; exact hw hw'

variable {c : ClassFile} {input : Bytes} {count : UInt16} {xs : List Constant}
  {parts : List Bytes} {tail : Bytes}

theorem declaredCount_of_parts (h : Parts c input count xs parts tail) :
    declaredCount input = count := by
  rw [h.input]
  exact Bytes.toUInt16_ofUInt16 count

theorem withDeclaredCount_of_parts (h : Parts c input count xs parts tail) (k : UInt16) :
    withDeclaredCount input k = c.head ++ (Bytes.ofUInt16 k ++ (parts.flatten ++ tail)) := by
  rw [h.input]
  rfl

theorem toBytes_of_parts (h : Parts c input count xs parts tail) :
    c.toBytes = if c.pool.count ≤ 65535 then
        .ok (withDeclaredCount input (UInt16.ofNat c.pool.count))
      else .error .constantPoolOverflow := by
  split
  · rename_i hle
    obtain ⟨parts', hparts', hflat⟩ := ConstantPool.encode_slots_of h.constants
    rw [← h.slots] at hparts'
    refine toBytes_eq_ok_iff.2
      ⟨_, tail, ConstantPool.encode_eq_ok_iff.2 ⟨hle, _, hparts', rfl⟩, h.tail, ?_⟩
    rw [withDeclaredCount_of_parts h, hflat, List.append_assoc]
  · rename_i hle
    have : c.pool.encode = .error .constantPoolOverflow := if_neg hle
    rw [toBytes, this]
    rfl

/-! ## The count -/

theorem getElem?_of_overhang {p : ConstantPool} {first : List Constant} {last : Constant}
    (hp : p.slots.toList = (first ++ [last]).flatMap Constant.slots) (hw : last.isWide = true) :
    p.slots.toList[p.slots.size - 2]? = some (some last) := by
  rw [← Array.length_toList, hp, List.flatMap_append, List.flatMap_singleton, Constant.slots,
    if_pos hw, List.length_append, List.length_cons, List.length_singleton, Nat.add_sub_cancel,
    List.getElem?_append_right (Nat.le_refl _), Nat.sub_self]
  rfl

/-- The last slot of a list of constants holds no constant of eight bytes. -/
theorem not_wide_of_last {p : ConstantPool} (hp : p.slots.toList = xs.flatMap Constant.slots)
    {x : Constant} (hx : p.slots.toList[p.slots.size - 1]? = some (some x)) :
    x.isWide = false := by
  rw [← Array.length_toList, ← List.getLast?_eq_getElem?, hp] at hx
  rcases List.eq_nil_or_concat xs with rfl | ⟨first, last, rfl⟩
  · cases hx
  · rw [List.concat_eq_append, List.flatMap_append, List.flatMap_singleton] at hx
    unfold Constant.slots at hx
    cases hw : last.isWide with
    | true => rw [hw, if_pos rfl] at hx; simp at hx
    | false =>
      rw [hw, if_neg Bool.false_ne_true, List.getLast?_append] at hx
      simp only [List.getLast?_singleton, Option.some_or, Option.some.injEq] at hx
      rw [← hx, hw]

theorem toNat_sub_one (h : count ≠ 0) : (count - 1).toNat = count.toNat - 1 := by
  refine UInt16.toNat_sub_of_le _ _ (UInt16.le_iff_toNat_le.2 ?_)
  have : count.toNat ≠ 0 := fun h0 => h (UInt16.toNat_inj.1 h0)
  simp
  omega

theorem count_of_parts (h : Parts c input count xs parts tail) :
    c.pool.count = if count = 0 then 1
      else if c.Overhangs count then count.toNat + 1 else count.toNat := by
  have hsize : c.pool.slots.size = (xs.flatMap Constant.slots).length := by
    rw [← Array.length_toList, h.slots]
  unfold ConstantPool.count
  by_cases h0 : count = 0
  · rw [if_pos h0]
    subst h0
    rcases h.filled with ⟨-, rfl⟩ | hfull | ⟨hover, -⟩
    · rw [hsize]; rfl
    · simp at hfull
    · rw [hsize]; simp at hover ⊢; omega
  have hpos : count.toNat ≠ 0 := fun hz => h0 (UInt16.toNat_inj.1 hz)
  rw [if_neg h0]
  rcases h.filled with ⟨hlt, -⟩ | hfull | ⟨hover, first, last, rfl, hlast⟩
  · omega
  · have hnot : ¬ c.Overhangs count := by
      rintro ⟨x, hx, hw⟩
      have hx := (ConstantPool.get?_eq_some_iff.1 hx).2
      have hi : (count - 1).toNat - 1 = c.pool.slots.size - 1 := by
        rw [toNat_sub_one h0]
        omega
      rw [hi] at hx
      rw [not_wide_of_last h.slots hx] at hw
      cases hw
    rw [if_neg hnot]
    omega
  · have hlen := last.length_slots
    rw [if_pos hlast] at hlen
    have hmore : 2 ≤ c.pool.slots.size := by
      rw [hsize, List.flatMap_append, List.length_append, List.flatMap_singleton, hlen]
      omega
    have hyes : c.Overhangs count := by
      refine ⟨last, ConstantPool.get?_eq_some_iff.2 ⟨?_, ?_⟩, hlast⟩
      · intro h1
        have h1 := congrArg UInt16.toNat h1
        rw [toNat_sub_one h0] at h1
        simp at h1
        omega
      · rw [toNat_sub_one h0, show count.toNat - 1 - 1 = c.pool.slots.size - 2 by omega]
        exact getElem?_of_overhang h.slots hlast
    rw [if_pos hyes]
    omega

/-- A class file that was read is written as the bytes it was read from, except
for a declared count of zero, which becomes one, and for a declared count
whose last slot begins a constant of eight bytes, which becomes one higher,
if there is such a count. -/
theorem toBytes_of_parse (h : parse input = .ok c) :
    (c.toBytes =
      if declaredCount input = 0 then .ok (withDeclaredCount input 1)
      else if c.Overhangs (declaredCount input) then
        if declaredCount input = 65535 then .error .constantPoolOverflow
        else .ok (withDeclaredCount input (declaredCount input + 1))
      else .ok input) ∧
    (c.toBytes = .ok input ↔
      declaredCount input ≠ 0 ∧ ¬ c.Overhangs (declaredCount input)) := by
  obtain ⟨count, xs, parts, tail, hc⟩ := exists_parts h
  have hsame : withDeclaredCount input count = input := by
    rw [withDeclaredCount_of_parts hc, ← hc.input]
  have hlt := count.toNat_lt
  have heq : c.toBytes =
      if count = 0 then .ok (withDeclaredCount input 1)
      else if c.Overhangs count then
        if count = 65535 then .error .constantPoolOverflow
        else .ok (withDeclaredCount input (count + 1))
      else .ok input := by
    rw [toBytes_of_parts hc, count_of_parts hc]
    by_cases h0 : count = 0
    · rw [if_pos h0, if_pos h0]
      rfl
    rw [if_neg h0, if_neg h0]
    by_cases hover : c.Overhangs count
    · rw [if_pos hover, if_pos hover]
      by_cases hmax : count = 65535
      · subst hmax
        rfl
      · have hne : count.toNat ≠ 65535 := fun he => hmax (UInt16.toNat_inj.1 he)
        rw [if_neg hmax, if_pos (by omega), UInt16.ofNat_add, UInt16.ofNat_toNat]
        rfl
    · rw [if_neg hover, if_neg hover, if_pos (by omega), UInt16.ofNat_toNat, hsame]
  rw [declaredCount_of_parts hc]
  refine ⟨heq, ?_⟩
  rw [heq]
  have hother : ∀ k, withDeclaredCount input k = input → k = count := fun k hk => by
    rw [← declaredCount_of_parts hc, ← hk, withDeclaredCount_of_parts hc]
    exact (Bytes.toUInt16_ofUInt16 k).symm
  split
  · rename_i h0
    simp only [h0, ne_eq, not_true_eq_false, false_and, iff_false, Except.ok.injEq]
    intro h1
    cases (hother 1 h1).trans h0
  · rename_i h0
    split
    · rename_i hover
      simp only [hover, not_true_eq_false, and_false, iff_false]
      split
      · rintro ⟨⟩
      · intro h1
        have h1 := hother _ (Except.ok.inj h1)
        simp at h1
    · rename_i hover
      simp only [ne_eq, h0, not_false_eq_true, hover, and_self]

/-- A class file whose one constant, of eight bytes, begins in the last
declared slot. -/
def overhangingBytes : Bytes :=
  [0xCA, 0xFE, 0xBA, 0xBE, 0, 0, 0, 52, 0, 2, 5, 0, 0, 0, 0, 0, 0, 0, 1] ++ List.replicate 14 0

/-- What `overhangingBytes` is read as. -/
def overhanging : ClassFile :=
  { empty with majorVersion := 52, pool := leaves (ConstantPool.push (.long 1)) .empty }

theorem overhanging_toBytes : parse overhangingBytes = .ok overhanging ∧
    overhanging.toBytes = .ok (withDeclaredCount overhangingBytes 3) ∧
    overhanging.toBytes ≠ .ok overhangingBytes := by
  have h : parse overhangingBytes = .ok overhanging := by decide +kernel
  have hcount : declaredCount overhangingBytes = 2 := by decide
  have hover : overhanging.Overhangs 2 := ⟨.long 1, by decide, rfl⟩
  obtain ⟨heq, hiff⟩ := toBytes_of_parse h
  rw [hcount] at heq hiff
  rw [if_neg (by decide), if_pos hover, if_neg (by decide)] at heq
  exact ⟨h, heq, fun hsame => (hiff.1 hsame).2 hover⟩

end ClassFile

end ClassStamp
