import ClassStamp.ClassFile.Edit
import ClassStamp.Proofs.ClassFile.PoolGrowth
import ClassStamp.Proofs.ModifiedUtf8

/-!
# How a class file grows

Adding fields and interfaces and listing inner classes, whether it goes well
or not, only ever adds to a class file (`Grows`), with the list of inner
classes as the one attribute that is replaced. So whatever was declared stays
declared, and the class keeps its name.

* `addField_eq`, `addInterface_eq`, `setInnerClasses_eq`: the edits, case by
  case, `addField_eq_ok` and `addInterface_eq_ok`: those that go well, and
  `grows_addField` and its like: what they leave;
* `declared_of_grows`: declared fields stay declared;
* `added_of_declared`: a field that was not declared before is one of those
  that were added;
* `declared_addField`: a field that was added is declared;
* `declared_before_addField`: and no other field is, unless it was before.
-/

namespace ClassStamp

open ConstantPool (Appends maxCount)
open ModifiedUtf8 (encode)

theorem ConstantPool.Appends.size_le_maxCount {p q : ConstantPool} (h : Appends p q)
    (hle : p.slots.size ≤ maxCount) : q.slots.size ≤ maxCount := by
  rcases h.count with hq | rfl
  · exact Nat.le_of_succ_le hq
  · exact hle

/-- A text is read from the bytes that it is written in. -/
theorem ConstantPool.utf8_of_get? {p : ConstantPool} {index : UInt16} {s : String}
    (h : p.get? index = some (.utf8 (ModifiedUtf8.encode s))) : p.utf8 index = .ok s := by
  unfold utf8 utf8Bytes
  rw [h]
  dsimp only
  rw [ModifiedUtf8.decode_encode]

namespace ClassFile

/-- The field of a class file over a pool is what a description asks for. -/
structure Describes (pool : ConstantPool) (spec : FieldSpec) (m : Member) : Prop where
  accessFlags : m.accessFlags = spec.accessFlags
  name : pool.get? m.nameIndex = some (.utf8 (encode spec.name))
  descriptor : pool.get? m.descriptorIndex = some (.utf8 (encode spec.descriptor))

theorem Describes.of_appends {p q : ConstantPool} {spec : FieldSpec} {m : Member}
    (h : Describes p spec m) (hq : Appends p q) : Describes q spec m :=
  ⟨h.accessFlags, ConstantPool.get?_of_appends h.name hq,
    ConstantPool.get?_of_appends h.descriptor hq⟩

/-- The attribute has the name of the list of inner classes. -/
def ListsInner (pool : ConstantPool) (a : Attribute) : Prop :=
  pool.get? a.nameIndex = some (.utf8 (encode innerClassesName))

/-- The later class file is the earlier one with more constants, interfaces,
allowed fields and another list of inner classes. What is said of the fields
and attributes that were added presupposes a pool no larger than the format
allows. -/
structure Grows (allowed : FieldSpec → Prop) (c d : ClassFile) : Prop where
  rest : d = { c with pool := d.pool, interfaces := d.interfaces, fields := d.fields,
                      attributes := d.attributes }
  pool : Appends c.pool d.pool
  interfaces : c.interfaces <+: d.interfaces
  fields : ∃ added, d.fields = c.fields ++ added ∧ (c.pool.slots.size ≤ maxCount →
    ∀ m ∈ added, ∃ spec, allowed spec ∧ Describes d.pool spec m)
  attributes : c.pool.slots.size ≤ maxCount →
    ∀ a ∈ c.attributes, a ∈ d.attributes ∨ ListsInner d.pool a

variable {allowed : FieldSpec → Prop} {c d e : ClassFile}

theorem Grows.refl (allowed : FieldSpec → Prop) (c : ClassFile) : Grows allowed c c :=
  ⟨rfl, .refl _, List.prefix_refl _, ⟨[], by simp, fun _ _ hm => nomatch hm⟩,
    fun _ _ ha => .inl ha⟩

theorem Grows.trans (h : Grows allowed c d) (h' : Grows allowed d e) : Grows allowed c e := by
  obtain ⟨added, hadded, hspecs⟩ := h.fields
  obtain ⟨added', hadded', hspecs'⟩ := h'.fields
  refine ⟨?_, h.pool.trans h'.pool, h.interfaces.trans h'.interfaces,
    ⟨added ++ added', by rw [hadded', hadded, List.append_assoc], fun hle m hm => ?_⟩,
    fun hle a ha => ?_⟩
  · rw [h'.rest, h.rest]
  · rcases List.mem_append.1 hm with hm | hm
    · obtain ⟨spec, hspec, hm⟩ := hspecs hle m hm
      exact ⟨spec, hspec, hm.of_appends h'.pool⟩
    · exact hspecs' (h.pool.size_le_maxCount hle) m hm
  · rcases h.attributes hle a ha with hd | hlists
    · exact h'.attributes (h.pool.size_le_maxCount hle) a hd
    · exact .inr (ConstantPool.get?_of_appends hlists h'.pool)

instance : IsPreorder ClassFile (Grows allowed) where
  refl := .refl allowed
  trans _ _ _ := .trans

theorem Grows.mono {allowed' : FieldSpec → Prop} (h : Grows allowed c d)
    (hmono : ∀ spec, allowed spec → allowed' spec) : Grows allowed' c d := by
  obtain ⟨added, hadded, hspecs⟩ := h.fields
  refine ⟨h.rest, h.pool, h.interfaces, ⟨added, hadded, fun hle m hm => ?_⟩, h.attributes⟩
  obtain ⟨spec, hspec, hm⟩ := hspecs hle m hm
  exact ⟨spec, hmono spec hspec, hm⟩

theorem Grows.thisClass (h : Grows allowed c d) : d.thisClass = c.thisClass := by rw [h.rest]

theorem Grows.superClass (h : Grows allowed c d) : d.superClass = c.superClass := by rw [h.rest]

theorem Grows.accessFlags (h : Grows allowed c d) : d.accessFlags = c.accessFlags := by
  rw [h.rest]

theorem Grows.name {n : ClassName} (h : Grows allowed c d) (hn : c.name = .ok n) :
    d.name = .ok n := by
  unfold ClassFile.name at hn ⊢
  rw [h.thisClass]
  exact ConstantPool.className_of_appends hn h.pool

theorem Grows.isInterface (h : Grows allowed c d) : d.isInterface = c.isInterface := by
  rw [ClassFile.isInterface, ClassFile.isInterface, h.accessFlags]

/-! ## Declared fields -/

/-- A field of that name is declared. -/
def Declares (c : ClassFile) (name : String) : Prop := (c.declaredField? name).isSome = true

instance (c : ClassFile) (name : String) : Decidable (c.Declares name) :=
  inferInstanceAs (Decidable (_ = true))

theorem declares_iff {name : String} :
    c.Declares name ↔ ∃ m ∈ c.fields, c.pool.get? m.nameIndex = some (.utf8 (encode name)) := by
  rw [Declares, declaredField?_eq, List.find?_isSome]
  simp only [beq_iff_eq]

theorem declared_of_grows {name : String} (h : Grows allowed c d) (hc : c.Declares name) :
    d.Declares name := by
  obtain ⟨m, hm, hname⟩ := declares_iff.1 hc
  obtain ⟨added, hadded, -⟩ := h.fields
  refine declares_iff.2 ⟨m, ?_, ConstantPool.get?_of_appends hname h.pool⟩
  rw [hadded]
  exact List.mem_append_left _ hm

/-- The names of all fields are looked up inside the pool. -/
def IndicesInside (c : ClassFile) : Prop := ∀ m ∈ c.fields, m.nameIndex.toNat < c.pool.count

/-- A field of a name that was not declared before is one that was added. -/
theorem added_of_declared {name : String} {m : Member} (h : Grows allowed c d)
    (hle : c.pool.slots.size ≤ maxCount) (hin : c.IndicesInside) (hc : ¬ c.Declares name)
    (hm : m ∈ d.fields) (hname : d.pool.get? m.nameIndex = some (.utf8 (encode name))) :
    ∃ spec, allowed spec ∧ spec.name = name ∧ Describes d.pool spec m := by
  obtain ⟨added, hadded, hspecs⟩ := h.fields
  rw [hadded] at hm
  rcases List.mem_append.1 hm with hm | hm
  · rw [ConstantPool.get?_eq_of_appends (hin m hm) h.pool] at hname
    exact absurd (declares_iff.2 ⟨m, hm, hname⟩) hc
  · obtain ⟨spec, hspec, hdescribes⟩ := hspecs hle m hm
    have hsame := hdescribes.name.symm.trans hname
    simp only [Option.some.injEq, Constant.utf8.injEq] at hsame
    exact ⟨spec, hspec, ModifiedUtf8.encode_injective hsame, hdescribes⟩

/-! ## The edits -/

theorem addField_eq (spec : FieldSpec) (c : ClassFile) :
    addField spec c =
      if (c.declaredField? spec.name).isSome then .error (.duplicateField spec.name) c
      else if c.fields.length + 1 ≤ 65535 then match memberOf spec c.pool with
        | .ok m pool => .ok () { c with pool, fields := c.fields ++ [m] }
        | .error e pool => .error e { c with pool }
      else .error (.tooManyMembers .fields) c := by
  simp only [addField, bind, EStateM.bind, get_eq]
  by_cases hdup : (c.declaredField? spec.name).isSome = true
  · rw [if_pos hdup, if_pos hdup]
    rfl
  · rw [if_neg hdup, if_neg hdup]
    simp only [Edit.checkCount]
    by_cases hfull : c.fields.length + 1 ≤ 65535
    · rw [if_pos hfull, if_pos hfull]
      show EStateM.bind (Edit.onPool (memberOf spec)) _ c = _
      simp only [EStateM.bind, Edit.onPool]
      cases memberOf spec c.pool <;> rfl
    · rw [if_neg hfull, if_neg hfull]
      rfl

theorem addField_eq_ok {spec : FieldSpec} (h : addField spec c = .ok () d) :
    ¬ c.Declares spec.name ∧ c.fields.length + 1 ≤ 65535 ∧
      ∃ m, memberOf spec c.pool = .ok m d.pool ∧
        d = { c with pool := d.pool, fields := c.fields ++ [m] } := by
  rw [addField_eq] at h
  split_ifs at h with hdup hfull
  refine ⟨hdup, hfull, ?_⟩
  cases hm : memberOf spec c.pool with
  | error e pool => rw [hm] at h; cases h
  | ok m pool =>
    rw [hm] at h
    cases h
    exact ⟨m, rfl, rfl⟩

theorem addInterface_eq (n : ClassName) (c : ClassFile) :
    addInterface n c = match ConstantPool.classIndex n c.pool with
      | .error e pool => .error e { c with pool }
      | .ok index pool =>
        if c.interfaces.contains index then .ok false { c with pool }
        else if c.interfaces.length + 1 ≤ 65535 then
          .ok true { c with pool, interfaces := c.interfaces ++ [index] }
        else .error (.tooManyMembers .interfaces) { c with pool } := by
  simp only [addInterface, bind, EStateM.bind, Edit.onPool]
  cases ConstantPool.classIndex n c.pool with
  | error e pool => rfl
  | ok index pool =>
    simp only [get_eq]
    by_cases hin : c.interfaces.contains index = true
    · rw [if_pos hin, if_pos hin]
      rfl
    · rw [if_neg hin, if_neg hin]
      simp only [Edit.checkCount]
      by_cases hfull : c.interfaces.length + 1 ≤ 65535
      · rw [if_pos hfull, if_pos hfull]
        rfl
      · rw [if_neg hfull, if_neg hfull]
        rfl

theorem addInterface_eq_ok {n : ClassName} {added : Bool} (h : addInterface n c = .ok added d) :
    ∃ index, ConstantPool.classIndex n c.pool = .ok index d.pool ∧
      (added = false ∧ index ∈ c.interfaces ∧ d = { c with pool := d.pool } ∨
      added = true ∧ index ∉ c.interfaces ∧
        d = { c with pool := d.pool, interfaces := c.interfaces ++ [index] }) := by
  rw [addInterface_eq] at h
  cases hi : ConstantPool.classIndex n c.pool with
  | error e pool => rw [hi] at h; cases h
  | ok index pool =>
    rw [hi] at h
    dsimp only at h
    split_ifs at h with hknown hfull
    · cases h
      exact ⟨index, rfl, .inl ⟨rfl, List.contains_iff_mem.1 hknown, rfl⟩⟩
    · cases h
      exact ⟨index, rfl, .inr ⟨rfl, fun hmem => hknown (List.contains_iff_mem.2 hmem), rfl⟩⟩

theorem setInnerClasses_eq (rows : List InnerClass) (c : ClassFile) :
    setInnerClasses rows c =
      if rows.length ≤ 65535 then match innerClassesAttribute rows c.pool with
        | .error e pool => .error e { c with pool }
        | .ok listing pool => .ok () { c with
            pool
            attributes := c.attributes.filter (fun a => a.nameIndex != listing.nameIndex) ++
              [listing] }
      else .error (.tooManyMembers .innerClasses) c := by
  simp only [setInnerClasses, bind, EStateM.bind, Edit.checkCount]
  by_cases hfull : rows.length ≤ 65535
  · rw [if_pos hfull, if_pos hfull]
    show EStateM.bind (Edit.onPool (innerClassesAttribute rows)) _ c = _
    simp only [EStateM.bind, Edit.onPool]
    cases innerClassesAttribute rows c.pool <;> rfl
  · rw [if_neg hfull, if_neg hfull]
    rfl

/-! ## What the edits leave -/

theorem appends_valueIndex (value : FieldValue) : Keeps Appends (valueIndex value) := by
  cases value with
  | int value => exact ConstantPool.appends_integerIndex value
  | long value => exact ConstantPool.appends_push _
  | string value =>
    exact .bind (ConstantPool.appends_utf8Index value) fun _ => ConstantPool.appends_push _

theorem appends_constantValue (value : FieldValue) : Keeps Appends (constantValue value) :=
  .bind (appends_valueIndex value) fun _ =>
    .bind (ConstantPool.appends_utf8Index constantValueName) fun _ => .pure _

theorem appends_memberOf (spec : FieldSpec) : Keeps Appends (memberOf spec) := by
  refine .bind (ConstantPool.appends_utf8Index spec.name) fun _ =>
    .bind (ConstantPool.appends_utf8Index spec.descriptor) fun _ => ?_
  cases spec.value with
  | none => exact .bind (.pure []) fun _ => .pure _
  | some value =>
    exact .bind (appends_constantValue value) fun _ => .bind (.pure _) fun _ => .pure _

/-- The field that an edit of the pool makes is what the description asks
for. -/
theorem memberOf_describes {spec : FieldSpec} {p q : ConstantPool} {m : Member}
    (hle : p.slots.size ≤ maxCount) (h : memberOf spec p = .ok m q) : Describes q spec m := by
  obtain ⟨nameIndex, p₁, h₁, h⟩ := estate_bind_eq_ok h
  obtain ⟨descriptorIndex, p₂, h₂, h⟩ := estate_bind_eq_ok h
  have hp₁ := (ConstantPool.appends_utf8Index spec.name).ok h₁
  have hp₂ := (ConstantPool.appends_utf8Index spec.descriptor).ok h₂
  have hname := ConstantPool.get?_of_indexOf hle h₁
  have hdescriptor := ConstantPool.get?_of_indexOf (hp₁.size_le_maxCount hle) h₂
  cases hv : spec.value with
  | none =>
    rw [hv] at h
    cases h
    exact ⟨rfl, ConstantPool.get?_of_appends hname hp₂, hdescriptor⟩
  | some value =>
    rw [hv] at h
    obtain ⟨listing, p₃, h₃, h⟩ := estate_bind_eq_ok h
    have hp₃ := (appends_constantValue value).ok h₃
    cases h
    exact ⟨rfl, ConstantPool.get?_of_appends hname (hp₂.trans hp₃),
      ConstantPool.get?_of_appends hdescriptor hp₃⟩

/-- More constants alone. -/
theorem grows_pool {pool : ConstantPool} (h : Appends c.pool pool) :
    Grows allowed c { c with pool } :=
  ⟨rfl, h, List.prefix_refl _, ⟨[], by simp, fun _ _ hm => nomatch hm⟩, fun _ _ ha => .inl ha⟩

theorem grows_addField {spec : FieldSpec} (hspec : allowed spec) :
    Keeps (Grows allowed) (addField spec) := by
  intro c
  unfold leaves
  rw [addField_eq]
  split_ifs
  · exact .refl allowed c
  · cases hm : memberOf spec c.pool with
    | error e pool => exact grows_pool ((appends_memberOf spec).error hm)
    | ok m pool =>
      refine ⟨rfl, (appends_memberOf spec).ok hm, List.prefix_refl _,
        ⟨[m], rfl, fun hle m' hm' => ?_⟩, fun _ _ ha => .inl ha⟩
      rw [List.mem_singleton.1 hm']
      exact ⟨spec, hspec, memberOf_describes hle hm⟩
  · exact .refl allowed c

theorem grows_addInterface (n : ClassName) : Keeps (Grows allowed) (addInterface n) := by
  intro c
  unfold leaves
  rw [addInterface_eq]
  cases hi : ConstantPool.classIndex n c.pool with
  | error e pool => exact grows_pool ((ConstantPool.appends_classIndex n).error hi)
  | ok index pool =>
    have hpool := (ConstantPool.appends_classIndex n).ok hi
    dsimp only
    split_ifs
    · exact grows_pool hpool
    · exact ⟨rfl, hpool, List.prefix_append _ _, ⟨[], by simp, fun _ _ hm => nomatch hm⟩,
        fun _ _ ha => .inl ha⟩
    · exact grows_pool hpool

theorem appends_optionalIndex {α : Type} {index : α → ConstantPool.Edit UInt16}
    (h : ∀ a, Keeps Appends (index a)) (entry : Option α) :
    Keeps Appends (optionalIndex index entry) := by
  cases entry with
  | none => exact .pure 0
  | some a => exact h a

theorem appends_encodeInnerClass (row : InnerClass) : Keeps Appends (encodeInnerClass row) :=
  .bind (ConstantPool.appends_classIndex _) fun _ =>
    .bind (appends_optionalIndex ConstantPool.appends_classIndex _) fun _ =>
      .bind (appends_optionalIndex ConstantPool.appends_utf8Index _) fun _ => .pure _

theorem appends_innerClassesAttribute (rows : List InnerClass) :
    Keeps Appends (innerClassesAttribute rows) := by
  unfold innerClassesAttribute
  rw [encodeRows_nil]
  exact .bind (.mapM fun row _ => appends_encodeInnerClass row) fun _ =>
    .bind (ConstantPool.appends_utf8Index innerClassesName) fun _ => .pure _

theorem innerClassesAttribute_lists {rows : List InnerClass} {p q : ConstantPool} {a : Attribute}
    (hle : p.slots.size ≤ maxCount) (h : innerClassesAttribute rows p = .ok a q) :
    ListsInner q a := by
  unfold innerClassesAttribute at h
  rw [encodeRows_nil] at h
  obtain ⟨parts, p₁, h₁, h⟩ := estate_bind_eq_ok h
  obtain ⟨nameIndex, p₂, h₂, h⟩ := estate_bind_eq_ok h
  have hp₁ := (Keeps.mapM fun row _ => appends_encodeInnerClass row).ok h₁
  cases h
  exact ConstantPool.get?_of_indexOf (hp₁.size_le_maxCount hle) h₂

theorem grows_setInnerClasses (rows : List InnerClass) :
    Keeps (Grows allowed) (setInnerClasses rows) := by
  intro c
  unfold leaves
  rw [setInnerClasses_eq]
  split_ifs
  · cases hl : innerClassesAttribute rows c.pool with
    | error e pool => exact grows_pool ((appends_innerClassesAttribute rows).error hl)
    | ok listing pool =>
      refine ⟨rfl, (appends_innerClassesAttribute rows).ok hl, List.prefix_refl _,
        ⟨[], by simp, fun _ _ hm => nomatch hm⟩, fun hle a ha => ?_⟩
      by_cases hsame : a.nameIndex = listing.nameIndex
      · refine .inr ?_
        unfold ListsInner
        rw [hsame]
        exact innerClassesAttribute_lists hle hl
      · exact .inl (List.mem_append_left _ (List.mem_filter.2 ⟨ha, bne_iff_ne.2 hsame⟩))
  · exact .refl allowed c

/-- A field that was added is declared. -/
theorem declared_addField {spec : FieldSpec} (hle : c.pool.slots.size ≤ maxCount)
    (h : addField spec c = .ok () d) : ¬ c.Declares spec.name ∧ d.Declares spec.name := by
  obtain ⟨hnew, -, m, hm, hd⟩ := addField_eq_ok h
  refine ⟨hnew, declares_iff.2 ⟨m, ?_, (memberOf_describes hle hm).name⟩⟩
  rw [congrArg ClassFile.fields hd]
  exact List.mem_append_right _ (List.mem_singleton_self m)

/-! ## The texts of a field -/

/-- The text is one that a field needs in the pool. -/
def Uses (spec : FieldSpec) (s : String) : Prop :=
  s = spec.name ∨ s = spec.descriptor ∨ s = constantValueName ∨ spec.value = some (.string s)

theorem gains_valueIndex {texts : String → Prop} {value : FieldValue}
    (h : ∀ s, value = .string s → texts s) :
    Keeps (ConstantPool.Gains texts) (valueIndex value) := by
  cases value with
  | int value => exact ConstantPool.gains_indexOf fun _ hb => nomatch hb
  | long value => exact ConstantPool.gains_push fun _ hb => nomatch hb
  | string value =>
    exact .bind (ConstantPool.gains_utf8Index (h value rfl)) fun _ =>
      ConstantPool.gains_push fun _ hb => nomatch hb

theorem gains_memberOf (spec : FieldSpec) :
    Keeps (ConstantPool.Gains (Uses spec)) (memberOf spec) := by
  refine .bind (ConstantPool.gains_utf8Index (.inl rfl)) fun _ =>
    .bind (ConstantPool.gains_utf8Index (.inr (.inl rfl))) fun _ => ?_
  cases hv : spec.value with
  | none => exact .bind (.pure []) fun _ => .pure _
  | some value =>
    have hvalue : Keeps (ConstantPool.Gains (Uses spec)) (constantValue value) :=
      .bind (gains_valueIndex fun s hs => .inr (.inr (.inr (by rw [hv, hs])))) fun _ =>
        .bind (ConstantPool.gains_utf8Index (.inr (.inr (.inl rfl)))) fun _ => .pure _
    exact .bind hvalue fun _ => .bind (.pure _) fun _ => .pure _

/-- A field that is declared once another one was added was declared before, or
has the name of a text that came with the other one. -/
theorem declared_before_addField {spec : FieldSpec} {name : String}
    (hle : c.pool.slots.size ≤ maxCount) (h : addField spec c = .ok () d)
    (hd : d.Declares name) : c.Declares name ∨ Uses spec name := by
  obtain ⟨-, -, m, hm, hfields⟩ := addField_eq_ok h
  obtain ⟨m', hm', hname⟩ := declares_iff.1 hd
  rw [congrArg ClassFile.fields hfields] at hm'
  rcases List.mem_append.1 hm' with hm' | hm'
  · -- the index of an old field may have led nowhere so far
    rcases (gains_memberOf spec).ok hm _ _ hname with hold | ⟨s, hs, he⟩
    · exact .inl (declares_iff.2 ⟨m', hm', hold⟩)
    · rw [ModifiedUtf8.encode_injective he]
      exact .inr hs
  · rw [List.mem_singleton.1 hm'] at hname
    have hsame := (memberOf_describes hle hm).name.symm.trans hname
    simp only [Option.some.injEq, Constant.utf8.injEq] at hsame
    exact .inr (.inl (ModifiedUtf8.encode_injective hsame).symm)

end ClassFile

end ClassStamp
