import ClassStamp.Proofs.ClassFile.Changes

/-!
# Constants that are looked up or added

An edit that needs a constant takes the first one that is there, or adds it. The index
that it gives leads back to what was asked for, and whoever asks again is given the same
one. An edit fails for want of room only, so it is enough to count the slots that it
takes.

* `LeadsBack`: an index that an edit gives leads to what it was given for;
* `find?_of_indexOf`, `indexOf_of_get?`: it is the first one, and no constant is added
  that is there already;
* `findClass?`: where a class is looked for, `classIndex_of_findClass?` and
  `findClass?_of_classIndex` for the index that is given;
* `TakesAtMost`: an edit goes well wherever there is that much room, `OverflowsOnly`: it
  fails for no other reason;
* `Gains.length_le`: the texts of a longer pool fit if the old and the new ones do.
-/

namespace ClassStamp

namespace ConstantPool

/-! ## Indices and what they were given for -/

/-- The index that is given for a value leads to the value, in the pool that it was given
in and in every longer one. -/
def LeadsBack {α : Type} (index : α → ConstantPool.Edit UInt16)
    (entry : ConstantPool → UInt16 → Except ClassFileError α) : Prop :=
  ∀ ⦃p q a i⦄, p.slots.size ≤ maxCount → index a p = .ok i q →
    ∀ r, Appends q r → entry r i = .ok a

theorem leadsBack_classIndex : LeadsBack classIndex className := fun _ _ _ _ hle h _ hr =>
  className_of_appends (className_of_classIndex hle h) hr

theorem leadsBack_utf8Index : LeadsBack utf8Index utf8 := fun _ _ _ _ hle h _ hr =>
  utf8_of_get? (get?_of_appends (get?_of_indexOf hle h) hr)

theorem find?_of_indexOf {p q : ConstantPool} {x : Constant} {index : UInt16}
    (h : indexOf x p = .ok index q) : q.find? x = some index := by
  unfold indexOf at h
  split at h
  · cases h
    assumption
  · exact (find?_push (by assumption) h).2

theorem mem_of_get? {p : ConstantPool} {x : Constant} {index : UInt16}
    (h : p.get? index = some x) : some x ∈ p.slots :=
  Array.mem_toList_iff.1 (List.mem_of_getElem? (get?_eq_some_iff.1 h).2)

/-- The texts of a pool that has room for its count are at indices. -/
theorem exists_get?_of_mem {p : ConstantPool} {x : Constant} (hle : p.slots.size ≤ maxCount)
    (hx : some x ∈ p.slots) : ∃ index, p.get? index = some x := by
  obtain ⟨i, hi⟩ := List.getElem?_of_mem (Array.mem_toList_iff.2 hx)
  exact ⟨_, get?_ofNat hle hi⟩

theorem exists_find?_of_get? {p : ConstantPool} {x : Constant} {index : UInt16}
    (h : p.get? index = some x) : ∃ first, p.find? x = some first := by
  obtain ⟨i, hlt, hi⟩ := Array.getElem_of_mem (mem_of_get? h)
  cases hfind : p.slots.findIdx? (holds x) with
  | none =>
    have hnot := Array.findIdx?_eq_none_iff.1 hfind _ (mem_of_get? h)
    rw [holds_eq, beq_self_eq_true] at hnot
    cases hnot
  | some i => exact ⟨_, by rw [find?, hfind]; rfl⟩

/-- A constant that is there is not added. -/
theorem indexOf_of_get? {p q : ConstantPool} {x : Constant} {i index : UInt16}
    (hx : p.get? i = some x) (h : indexOf x p = .ok index q) : q = p := by
  obtain ⟨first, hfind⟩ := exists_find?_of_get? hx
  simp only [indexOf, hfind] at h
  cases h
  rfl

theorem extends_of_appends {p q : ConstantPool} (h : Appends p q) : Extends q p := by
  obtain ⟨⟨xs, hxs⟩, -⟩ := h
  refine ⟨(xs.flatMap Constant.slots).toArray, Array.toList_inj.1 ?_⟩
  rw [hxs, Array.toList_append, List.toList_toArray]

/-! ## Classes -/

/-- The index of the first constant for a class over the first text with its name. -/
def findClass? (p : ConstantPool) (n : ClassName) : Option UInt16 :=
  (p.findUtf8? n.internal).bind fun nameIndex => p.find? (.classRef nameIndex)

theorem findClass?_of_extends {p q : ConstantPool} {n : ClassName} {index : UInt16}
    (h : p.findClass? n = some index) (hq : Extends q p) : q.findClass? n = some index := by
  obtain ⟨nameIndex, hname, hclass⟩ := Option.bind_eq_some_iff.1 h
  exact Option.bind_eq_some_iff.2 ⟨nameIndex, find?_of_extends hname hq,
    find?_of_extends hclass hq⟩

theorem findClass?_of_classIndex {p q : ConstantPool} {n : ClassName} {index : UInt16}
    (h : classIndex n p = .ok index q) : q.findClass? n = some index := by
  obtain ⟨nameIndex, p₁, hname, hclass⟩ := estate_bind_eq_ok h
  have hlonger := (settles_indexOf _ p₁ index q hclass).1
  exact Option.bind_eq_some_iff.2 ⟨nameIndex, find?_of_extends (find?_of_indexOf hname) hlonger,
    find?_of_indexOf hclass⟩

theorem classIndex_of_findClass? {p : ConstantPool} {n : ClassName} {index : UInt16}
    (h : p.findClass? n = some index) : classIndex n p = .ok index p := by
  obtain ⟨nameIndex, hname, hclass⟩ := Option.bind_eq_some_iff.1 h
  have hname' : utf8Index n.internal p = .ok nameIndex p := by
    rw [findUtf8?] at hname
    simp only [utf8Index, indexOf, hname]
  simp only [classIndex, bind, EStateM.bind, hname', indexOf, hclass]

theorem exists_get?_of_utf8 {p : ConstantPool} {index : UInt16} {s : String}
    (h : p.utf8 index = .ok s) : ∃ x, p.get? index = some x := by
  unfold utf8 utf8Bytes at h
  cases hx : p.get? index with
  | some x => exact ⟨x, rfl⟩
  | none => rw [hx] at h; cases h

/-- Where a class name is read, there is a constant for the class, and one for the text. -/
theorem className_eq_ok {p : ConstantPool} {index : UInt16} {m : ClassName}
    (h : p.className index = .ok m) : ∃ textIndex x,
      p.get? index = some (.classRef textIndex) ∧ p.get? textIndex = some x := by
  unfold className at h
  split at h
  · rename_i textIndex hindex
    cases htext : p.utf8 textIndex with
    | error e => rw [htext] at h; cases h
    | ok s =>
      obtain ⟨x, hx⟩ := exists_get?_of_utf8 htext
      exact ⟨textIndex, x, hindex, hx⟩
  · cases h

/-- No constant is added for a class if the index that is given for it leads to a class
already. -/
theorem classIndex_of_className {p q : ConstantPool} {m n : ClassName} {index : UInt16}
    (hle : p.slots.size ≤ maxCount) (hm : p.className index = .ok m)
    (h : classIndex n p = .ok index q) : q = p := by
  obtain ⟨nameIndex, p₁, hname, hclass⟩ := estate_bind_eq_ok h
  have hp₁ := (appends_utf8Index _).ok hname
  have hq := (appends_indexOf _).ok hclass
  have hlater := get?_of_indexOf (hp₁.size_le_maxCount hle) hclass
  obtain ⟨textIndex, x, hearlier, hx⟩ := className_eq_ok hm
  -- the constant at the index was there, so the text that it refers to was there as well
  have hsame := (get?_of_appends hearlier (hp₁.trans hq)).symm.trans hlater
  simp only [Option.some.injEq, Constant.classRef.injEq] at hsame
  subst hsame
  have hfound := (get?_of_appends hx hp₁).symm.trans (get?_of_indexOf hle hname)
  have hp : p₁ = p := indexOf_of_get? (hx.trans hfound) hname
  subst hp
  exact indexOf_of_get? hearlier hclass

/-! ## Room -/

/-- The edit goes well wherever there is room for so many slots, and takes no more. -/
def TakesAtMost {α : Type} (slots : Nat) (edit : ConstantPool.Edit α) : Prop :=
  ∀ p, p.count + slots ≤ maxCount → ∃ a q, edit p = .ok a q ∧ q.count ≤ p.count + slots

/-- The edit fails for want of room only. -/
def OverflowsOnly {α : Type} (edit : ConstantPool.Edit α) : Prop :=
  ∀ p reason q, edit p = .error reason q → reason = .constantPoolOverflow

section Room

variable {α β : Type} {m n : Nat} {edit : ConstantPool.Edit α} {next : α → ConstantPool.Edit β}

theorem takesAtMost_pure (a : α) : TakesAtMost 0 (pure a) := fun p _ => ⟨a, p, rfl, Nat.le_refl _⟩

theorem TakesAtMost.mono (h : TakesAtMost m edit) (hle : m ≤ n) : TakesAtMost n edit := by
  intro p hroom
  obtain ⟨a, q, ha, hq⟩ := h p (by omega)
  exact ⟨a, q, ha, by omega⟩

theorem TakesAtMost.bind (h : TakesAtMost m edit) (hnext : ∀ a, TakesAtMost n (next a)) :
    TakesAtMost (m + n) (edit >>= next) := by
  intro p hroom
  obtain ⟨a, q, ha, hq⟩ := h p (by omega)
  obtain ⟨b, r, hb, hr⟩ := hnext a q (by omega)
  refine ⟨b, r, ?_, by omega⟩
  simp only [Bind.bind, EStateM.bind, ha, hb]

theorem takesAtMost_push (x : Constant) : TakesAtMost x.slots.length (push x) := by
  intro p hroom
  refine ⟨_, _, if_neg (Nat.not_lt.2 hroom), ?_⟩
  rw [count, ← Array.length_toList, toList_foldl_push, List.length_append, Array.length_toList,
    count]
  omega

theorem takesAtMost_indexOf (x : Constant) : TakesAtMost x.slots.length (indexOf x) := by
  intro p hroom
  unfold indexOf
  cases p.find? x with
  | some index => exact ⟨index, p, rfl, Nat.le_add_right _ _⟩
  | none => exact takesAtMost_push x p hroom

theorem takesAtMost_utf8Index (s : String) : TakesAtMost 1 (utf8Index s) :=
  takesAtMost_indexOf (.utf8 (ModifiedUtf8.encode s))

theorem overflowsOnly_pure (a : α) : OverflowsOnly (pure a) := fun _ _ _ h => nomatch h

theorem OverflowsOnly.bind (h : OverflowsOnly edit) (hnext : ∀ a, OverflowsOnly (next a)) :
    OverflowsOnly (edit >>= next) := by
  intro p reason q he
  simp only [Bind.bind, EStateM.bind] at he
  cases hp : edit p with
  | error reason' p₁ =>
    rw [hp] at he
    cases he
    exact h p reason q hp
  | ok a p₁ =>
    rw [hp] at he
    exact hnext a p₁ reason q he

theorem overflowsOnly_push (x : Constant) : OverflowsOnly (push x) := by
  intro p reason q h
  unfold push append at h
  split at h <;> cases h
  rfl

theorem overflowsOnly_indexOf (x : Constant) : OverflowsOnly (indexOf x) := by
  intro p reason q h
  unfold indexOf at h
  split at h
  · cases h
  · exact overflowsOnly_push x p reason q h

theorem overflowsOnly_utf8Index (s : String) : OverflowsOnly (utf8Index s) :=
  overflowsOnly_indexOf _

end Room

/-- The texts of the later pool fit if those of the earlier one and the new ones do. -/
theorem Gains.length_le {texts : String → Prop} {p q : ConstantPool} {bound : Nat}
    (h : Gains texts p q) (hle : q.slots.size ≤ maxCount)
    (hp : ∀ text, some (.utf8 text) ∈ p.slots → text.length ≤ bound)
    (hnew : ∀ s, texts s → (ModifiedUtf8.encode s).length ≤ bound) (text : Bytes)
    (htext : some (.utf8 text) ∈ q.slots) : text.length ≤ bound := by
  obtain ⟨index, hindex⟩ := exists_get?_of_mem hle htext
  rcases h index text hindex with hold | ⟨s, hs, rfl⟩
  · exact hp text (mem_of_get? hold)
  · exact hnew s hs

end ConstantPool

end ClassStamp
