import ClassStamp.Proofs.ClassFile.Slots
import ClassStamp.Proofs.Edit

/-!
# How a constant pool grows

Every edit of a constant pool, whether it goes well or not, adds constants at
the end and nothing else (`Appends`), so what an index stood for it still
stands for.

* `appends_push`, `appends_utf8Index`, `appends_classIndex` and their like:
  the edits do so;
* `get?_of_appends`: look-ups go on to find what they found;
* `get?_of_push`, `get?_of_indexOf`: the index that an edit gives leads to the constant;
* `Gains`: no text comes in but those that an edit is about.
-/

namespace ClassStamp

open Decoder

namespace ConstantPool

/-- The later pool has the slots of the earlier one, then those of more
constants, and is no larger than the format allows unless nothing was
added. -/
structure Appends (p q : ConstantPool) : Prop where
  slots : ∃ xs : List Constant, q.slots.toList = p.slots.toList ++ xs.flatMap Constant.slots
  count : q.count ≤ maxCount ∨ q = p

theorem Appends.refl (p : ConstantPool) : Appends p p := ⟨⟨[], by simp⟩, .inr rfl⟩

theorem Appends.trans {p q r : ConstantPool} (h : Appends p q) (h' : Appends q r) :
    Appends p r := by
  obtain ⟨⟨xs, hxs⟩, hp⟩ := h
  obtain ⟨⟨ys, hys⟩, hq⟩ := h'
  refine ⟨⟨xs ++ ys, by rw [hys, hxs, List.flatMap_append, List.append_assoc]⟩, ?_⟩
  rcases hq with hq | rfl
  · exact .inl hq
  · exact hp

instance : IsPreorder ConstantPool Appends where
  refl := Appends.refl
  trans _ _ _ := Appends.trans

theorem Appends.paired {p q : ConstantPool} (h : Appends p q) (hp : Paired p) : Paired q := by
  obtain ⟨⟨xs, hxs⟩, -⟩ := h
  obtain ⟨ys, hys⟩ := hp
  exact ⟨ys ++ xs, by rw [hxs, hys, List.flatMap_append]⟩

/-! ## Look-ups -/

theorem get?_eq_some_iff {p : ConstantPool} {index : UInt16} {x : Constant} :
    p.get? index = some x ↔ index ≠ 0 ∧ p.slots.toList[index.toNat - 1]? = some (some x) := by
  unfold get?
  by_cases h : index = 0
  · simp [h]
  · rw [if_neg h, Array.getD_eq_getD_getElem?, Array.getElem?_toList]
    cases p.slots[index.toNat - 1]? <;> simp [h]

theorem get?_of_appends {p q : ConstantPool} {index : UInt16} {x : Constant}
    (hx : p.get? index = some x) (h : Appends p q) : q.get? index = some x := by
  obtain ⟨⟨xs, hxs⟩, -⟩ := h
  obtain ⟨hne, hx⟩ := get?_eq_some_iff.1 hx
  refine get?_eq_some_iff.2 ⟨hne, ?_⟩
  rw [hxs, List.getElem?_append_left (List.getElem?_eq_some_iff.1 hx).1, hx]

/-- An index inside a pool stands for the same in every longer one. -/
theorem get?_eq_of_appends {p q : ConstantPool} {index : UInt16} (hlt : index.toNat < p.count)
    (h : Appends p q) : q.get? index = p.get? index := by
  obtain ⟨⟨xs, hxs⟩, -⟩ := h
  have hq : q.slots = p.slots ++ (xs.flatMap Constant.slots).toArray :=
    Array.toList_inj.1 (by rw [hxs, Array.toList_append, List.toList_toArray])
  unfold get?
  by_cases hz : index = 0
  · rw [if_pos hz, if_pos hz]
  have hpos : 0 < index.toNat := by
    rcases Nat.eq_zero_or_pos index.toNat with h0 | h0
    · exact absurd (UInt16.toNat_inj.1 h0) hz
    · exact h0
  unfold count at hlt
  rw [if_neg hz, if_neg hz, hq, Array.getD_eq_getD_getElem?, Array.getD_eq_getD_getElem?,
    Array.getElem?_append_left (by omega)]

theorem utf8_of_appends {p q : ConstantPool} {index : UInt16} {s : String}
    (hs : p.utf8 index = .ok s) (h : Appends p q) : q.utf8 index = .ok s := by
  unfold utf8 utf8Bytes at hs ⊢
  cases hx : p.get? index with
  | none => rw [hx] at hs; cases hs
  | some x => rw [get?_of_appends hx h]; rwa [hx] at hs

theorem className_of_appends {p q : ConstantPool} {index : UInt16} {n : ClassName}
    (hn : p.className index = .ok n) (h : Appends p q) : q.className index = .ok n := by
  unfold className at hn ⊢
  split at hn
  · rename_i nameIndex hx
    rw [get?_of_appends hx h]
    dsimp only
    cases hs : p.utf8 nameIndex with
    | error e => rw [hs] at hn; cases hn
    | ok s => rw [utf8_of_appends hs h]; rwa [hs] at hn
  · cases hn

/-! ## The edits -/

theorem toList_foldl_push (slots : List (Option Constant)) (xs : Array (Option Constant)) :
    (slots.foldl Array.push xs).toList = xs.toList ++ slots := by
  simp

theorem push_eq_ok {x : Constant} {p q : ConstantPool} {index : UInt16}
    (h : push x p = .ok index q) :
    p.count + x.slots.length ≤ maxCount ∧ index = UInt16.ofNat p.count ∧
      q.slots.toList = p.slots.toList ++ x.slots := by
  unfold push append at h
  split at h <;> cases h
  exact ⟨by omega, rfl, toList_foldl_push _ _⟩

theorem appends_push (x : Constant) : Keeps Appends (push x) := by
  intro p
  cases h : push x p with
  | error e q =>
    rw [leaves_of_error h]
    unfold push append at h
    split at h <;> cases h
    exact .refl p
  | ok index q =>
    rw [leaves_of_ok h]
    obtain ⟨hle, -, hq⟩ := push_eq_ok h
    refine ⟨⟨[x], by rw [hq, List.flatMap_singleton]⟩, .inl ?_⟩
    rw [count, ← Array.length_toList, hq, List.length_append, Array.length_toList]
    unfold count at hle
    omega

theorem appends_indexOf (x : Constant) : Keeps Appends (indexOf x) := by
  intro p
  have hp := appends_push x p
  unfold leaves at hp ⊢
  unfold indexOf
  split
  · rename_i h
    split at h
    · cases h; exact .refl p
    · rwa [h] at hp
  · rename_i h
    split at h
    · cases h
    · rwa [h] at hp

theorem appends_utf8Index (s : String) : Keeps Appends (utf8Index s) := appends_indexOf _

theorem appends_integerIndex (v : Int32) : Keeps Appends (integerIndex v) := appends_indexOf _

theorem appends_classIndex (n : ClassName) : Keeps Appends (classIndex n) :=
  .bind (appends_utf8Index _) fun _ => appends_indexOf _

theorem get?_ofNat {p : ConstantPool} {i : Nat} {x : Constant} (hle : p.slots.size ≤ maxCount)
    (hx : p.slots.toList[i]? = some (some x)) : p.get? (UInt16.ofNat (i + 1)) = some x := by
  obtain ⟨hlt, -⟩ := List.getElem?_eq_some_iff.1 hx
  rw [Array.length_toList] at hlt
  unfold maxCount at hle
  have hn : (UInt16.ofNat (i + 1)).toNat = i + 1 := by simp; omega
  refine get?_eq_some_iff.2 ⟨fun h => ?_, ?_⟩
  · rw [h] at hn
    simp at hn
  · rw [hn, Nat.add_sub_cancel]
    exact hx

/-- The index of a constant that was added leads to it. -/
theorem get?_of_push {p q : ConstantPool} {x : Constant} {index : UInt16}
    (h : push x p = .ok index q) : q.get? index = some x := by
  obtain ⟨hmax, rfl, hq⟩ := push_eq_ok h
  have hfirst : x.slots[0]? = some (some x) := by unfold Constant.slots; split <;> rfl
  have hsize : q.slots.size = p.slots.size + x.slots.length := by
    rw [← Array.length_toList, hq, List.length_append, Array.length_toList]
  unfold count at hmax ⊢
  refine get?_ofNat (by omega) ?_
  rw [hq, List.getElem?_append_right (by simp), Array.length_toList, Nat.sub_self, hfirst]

/-- The index of a constant leads to it. -/
theorem get?_of_indexOf {p q : ConstantPool} {x : Constant} {index : UInt16}
    (hle : p.slots.size ≤ maxCount) (h : indexOf x p = .ok index q) : q.get? index = some x := by
  unfold indexOf at h
  split at h
  · rename_i hf
    cases h
    obtain ⟨i, hi, rfl⟩ := Option.map_eq_some_iff.1 hf
    obtain ⟨hlt, hx, -⟩ := Array.findIdx?_eq_some_iff_getElem.1 hi
    refine get?_ofNat hle ?_
    rw [holds_eq, beq_iff_eq] at hx
    rw [Array.getElem?_toList, Array.getElem?_eq_getElem hlt, hx]
  · exact get?_of_push h

/-! ## The texts that an edit brings in -/

/-- A text in the later pool is in the earlier one at the same index, or one of
the given texts. -/
def Gains (texts : String → Prop) (p q : ConstantPool) : Prop :=
  ∀ index bytes, q.get? index = some (.utf8 bytes) →
    p.get? index = some (.utf8 bytes) ∨ ∃ s, texts s ∧ bytes = ModifiedUtf8.encode s

section Gains

variable {texts : String → Prop}

instance : IsPreorder ConstantPool (Gains texts) where
  refl _ _ _ := .inl
  trans _ _ _ h h' index bytes hr := (h' index bytes hr).elim (h index bytes) .inr

theorem gains_push {x : Constant}
    (hx : ∀ bytes, x = .utf8 bytes → ∃ s, texts s ∧ bytes = ModifiedUtf8.encode s) :
    Keeps (Gains texts) (push x) := by
  intro p
  cases h : push x p with
  | error e q =>
    rw [leaves_of_error h]
    unfold push append at h
    split at h <;> cases h
    exact refl_of (Gains texts) p
  | ok index q =>
    rw [leaves_of_ok h]
    obtain ⟨-, -, hq⟩ := push_eq_ok h
    intro i bytes hi
    obtain ⟨hne, hi⟩ := get?_eq_some_iff.1 hi
    rw [hq, List.getElem?_append] at hi
    split at hi
    · exact .inl (get?_eq_some_iff.2 ⟨hne, hi⟩)
    · -- behind the old slots there is only the new constant
      refine .inr (hx bytes ?_)
      have hmem := List.mem_of_getElem? hi
      unfold Constant.slots at hmem
      split at hmem
      · rcases List.mem_pair.1 hmem with he | he
        · exact (Option.some.inj he).symm
        · cases he
      · exact (Option.some.inj (List.mem_singleton.1 hmem)).symm

theorem gains_indexOf {x : Constant}
    (hx : ∀ bytes, x = .utf8 bytes → ∃ s, texts s ∧ bytes = ModifiedUtf8.encode s) :
    Keeps (Gains texts) (indexOf x) := by
  intro p
  have hp := gains_push hx p
  unfold leaves at hp ⊢
  unfold indexOf
  split
  · rename_i h
    split at h
    · cases h
      exact refl_of (Gains texts) _
    · rwa [h] at hp
  · rename_i h
    split at h
    · cases h
    · rwa [h] at hp

theorem gains_utf8Index {s : String} (hs : texts s) : Keeps (Gains texts) (utf8Index s) :=
  gains_indexOf fun _ hb => ⟨s, hs, (Constant.utf8.inj hb).symm⟩

end Gains

end ConstantPool

end ClassStamp
