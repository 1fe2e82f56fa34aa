import ClassStamp.Proofs.ClassFile.Interning

/-!
# A field that was added

What a description asks for is read back from the class file that its field was added to,
through whatever constants the edit found or added. A field is refused if one of its name
is declared; otherwise only the lengths of the format can stand in the way, and five slots
of the pool are always enough.

* `StandsFor`, `Initializes`: an index, and the attributes of a field, lead to a value;
* `AddedField`: what is read back, `addedField_of_addField`;
* `takesAtMost_memberOf`, `overflowsOnly_memberOf`: what the constants of a field need;
* `fits_addField`: the class file can be written if it could before and the texts fit;
* `added_field_reads_back`: all of this, and when a field is refused;
* `removeField_addField`, `addField_again`: a field that is taken away again leaves its
  constants, and these are enough to add it once more; `declaredField?_addField`: other
  fields are found where they were.
-/

namespace ClassStamp

open ConstantPool (Appends Settles TakesAtMost OverflowsOnly maxCount)
open ModifiedUtf8 (encode)

/-- The texts of a description: the name, the descriptor, and the value if it is a text. -/
def FieldSpec.texts (spec : FieldSpec) : List String :=
  spec.name :: spec.descriptor :: match spec.value with
    | some (.string s) => [s]
    | _ => []

namespace ClassFile

variable {c d : ClassFile} {spec : FieldSpec} {p q : ConstantPool}

/-! ## Values -/

/-- The constant at the index is the value; that of a text refers to the text. -/
def StandsFor (pool : ConstantPool) (index : UInt16) : FieldValue → Prop
  | .int value => pool.get? index = some (.integer value)
  | .long value => pool.get? index = some (.long value)
  | .string s => ∃ textIndex, pool.get? index = some (.string textIndex) ∧
      pool.utf8 textIndex = .ok s

/-- The attributes of a field are those that its value asks for: none if there is no
value, else the one that leads to it. -/
def Initializes (pool : ConstantPool) (attributes : List Attribute) : Option FieldValue → Prop
  | none => attributes = []
  | some value => ∃ nameIndex index, attributes = [⟨nameIndex, Bytes.ofUInt16 index⟩] ∧
      pool.utf8 nameIndex = .ok constantValueName ∧ StandsFor pool index value

theorem StandsFor.of_appends {index : UInt16} {value : FieldValue}
    (h : StandsFor p index value) (hq : Appends p q) : StandsFor q index value := by
  cases value with
  | int value => exact ConstantPool.get?_of_appends h hq
  | long value => exact ConstantPool.get?_of_appends h hq
  | string s =>
    obtain ⟨textIndex, hindex, htext⟩ := h
    exact ⟨textIndex, ConstantPool.get?_of_appends hindex hq,
      ConstantPool.utf8_of_appends htext hq⟩

theorem standsFor_valueIndex {index : UInt16} {value : FieldValue} (hle : p.slots.size ≤ maxCount)
    (h : valueIndex value p = .ok index q) : StandsFor q index value := by
  cases value with
  | int value => exact ConstantPool.get?_of_indexOf hle h
  | long value => exact ConstantPool.get?_of_push h
  | string s =>
    obtain ⟨textIndex, p₁, h₁, h₂⟩ := estate_bind_eq_ok h
    have htext := ConstantPool.leadsBack_utf8Index hle h₁ q ((ConstantPool.appends_push _).ok h₂)
    exact ⟨textIndex, ConstantPool.get?_of_push h₂, htext⟩

/-- The attributes of a field that an edit of the pool makes are those of its value. -/
theorem initializes_memberOf {m : Member} (hle : p.slots.size ≤ maxCount)
    (h : memberOf spec p = .ok m q) : Initializes q m.attributes spec.value := by
  obtain ⟨nameIndex, p₁, h₁, h⟩ := estate_bind_eq_ok h
  obtain ⟨descriptorIndex, p₂, h₂, h⟩ := estate_bind_eq_ok h
  have hle₁ := ((ConstantPool.appends_utf8Index _).ok h₁).size_le_maxCount hle
  have hle₂ := ((ConstantPool.appends_utf8Index _).ok h₂).size_le_maxCount hle₁
  cases hv : spec.value with
  | none =>
    rw [hv] at h
    cases h
    rfl
  | some value =>
    rw [hv] at h
    obtain ⟨listed, p₃, h₃, h⟩ := estate_bind_eq_ok h
    cases h
    obtain ⟨index, p₄, h₄, h₃⟩ := estate_bind_eq_ok h₃
    obtain ⟨attributeName, p₅, h₅, h₃⟩ := estate_bind_eq_ok h₃
    cases h₃
    have hp₄ := (appends_valueIndex value).ok h₄
    have hp₅ := (ConstantPool.appends_utf8Index _).ok h₅
    have hname := ConstantPool.leadsBack_utf8Index (hp₄.size_le_maxCount hle₂) h₅ _ (.refl _)
    exact ⟨attributeName, index, rfl, hname, (standsFor_valueIndex hle₂ h₄).of_appends hp₅⟩

/-! ## What is read back -/

theorem addField_of_memberOf {m : Member} (hnew : ¬ c.Declares spec.name)
    (hfull : c.fields.length + 1 ≤ 65535) (hm : memberOf spec c.pool = .ok m q) :
    addField spec c = .ok () { c with pool := q, fields := c.fields ++ [m] } := by
  rw [addField_eq]
  split_ifs with hdup
  · exact absurd hdup hnew
  · rw [hm]

/-- More constants do not change which field a name leads to, if the names of all fields
are looked up inside the pool. -/
theorem declaredField?_of_appends (hin : c.IndicesInside) (hpool : Appends c.pool d.pool)
    (hfields : d.fields = c.fields) (name : String) :
    d.declaredField? name = c.declaredField? name := by
  rw [declaredField?_eq_find?, declaredField?_eq_find?, hfields]
  exact List.find?_congr fun m hm => hasName_of_appends (hin m hm) hpool

/-- The later class file is the earlier one with one more field, the last one, which is
what the description asks for. -/
structure AddedField (spec : FieldSpec) (c d : ClassFile) (m : Member) : Prop where
  rest : d = { c with pool := d.pool, fields := c.fields ++ [m] }
  pool : Appends c.pool d.pool
  new : m ∉ c.fields
  accessFlags : m.accessFlags = spec.accessFlags
  name : d.memberName m = .ok spec.name
  descriptor : d.memberDescriptor m = .ok spec.descriptor
  declared : d.declaredField? spec.name = some m
  value : Initializes d.pool m.attributes spec.value

theorem addedField_of_addField (hle : c.pool.slots.size ≤ maxCount) (hin : c.IndicesInside)
    (h : addField spec c = .ok () d) : ∃ m, AddedField spec c d m := by
  obtain ⟨hnew, -, m, hm, hd⟩ := addField_eq_ok h
  have hpool := (appends_memberOf spec).ok hm
  have hdescribes := memberOf_describes hle hm
  -- no old field has the name, neither before nor among the new constants
  have hold : ∀ m' ∈ c.fields, d.pool.get? m'.nameIndex ≠ some (.utf8 (encode spec.name)) := by
    intro m' hm' hname
    rw [ConstantPool.get?_eq_of_appends (hin m' hm') hpool] at hname
    exact hnew (declares_iff.2 ⟨m', hm', hname⟩)
  have hdeclared : d.declaredField? spec.name = some m := by
    have hnone : c.fields.find? (fun m' =>
        d.pool.get? m'.nameIndex == some (.utf8 (encode spec.name))) = none :=
      List.find?_eq_none.2 fun m' hm' => by simpa using hold m' hm'
    rw [declaredField?_eq, congrArg ClassFile.fields hd, List.find?_append, hnone,
      Option.none_or]
    exact List.find?_cons_of_pos (beq_iff_eq.2 hdescribes.name)
  exact ⟨m, {
    rest := hd
    pool := hpool
    new := fun hmem => hold m hmem hdescribes.name
    accessFlags := hdescribes.accessFlags
    name := ConstantPool.utf8_of_get? hdescribes.name
    descriptor := ConstantPool.utf8_of_get? hdescribes.descriptor
    declared := hdeclared
    value := initializes_memberOf hle hm }⟩

/-! ## Room -/

theorem takesAtMost_valueIndex (value : FieldValue) : TakesAtMost 2 (valueIndex value) := by
  cases value with
  | int value =>
    exact (ConstantPool.takesAtMost_indexOf (.integer value)).mono (by decide : 1 ≤ 2)
  | long value => exact ConstantPool.takesAtMost_push (.long value)
  | string s =>
    exact (ConstantPool.takesAtMost_utf8Index s).bind fun i =>
      ConstantPool.takesAtMost_push (.string i)

theorem takesAtMost_constantValue (value : FieldValue) : TakesAtMost 3 (constantValue value) :=
  (takesAtMost_valueIndex value).bind fun _ =>
    (ConstantPool.takesAtMost_utf8Index constantValueName).bind fun _ =>
      ConstantPool.takesAtMost_pure _

/-- Five slots are enough for a field: two for its name and descriptor, two for its value,
and one for the name of the attribute that leads to it. -/
theorem takesAtMost_memberOf (spec : FieldSpec) : TakesAtMost 5 (memberOf spec) := by
  refine TakesAtMost.bind (n := 4) (ConstantPool.takesAtMost_utf8Index spec.name) fun _ =>
    TakesAtMost.bind (n := 3) (ConstantPool.takesAtMost_utf8Index spec.descriptor) fun _ => ?_
  cases spec.value with
  | none =>
    exact ((ConstantPool.takesAtMost_pure []).bind fun _ =>
      ConstantPool.takesAtMost_pure _).mono (Nat.zero_le 3)
  | some value =>
    exact (takesAtMost_constantValue value).bind fun _ =>
      (ConstantPool.takesAtMost_pure _).bind fun _ => ConstantPool.takesAtMost_pure _

theorem overflowsOnly_valueIndex (value : FieldValue) : OverflowsOnly (valueIndex value) := by
  cases value with
  | int value => exact ConstantPool.overflowsOnly_indexOf _
  | long value => exact ConstantPool.overflowsOnly_push _
  | string s =>
    exact (ConstantPool.overflowsOnly_utf8Index s).bind fun _ => ConstantPool.overflowsOnly_push _

theorem overflowsOnly_constantValue (value : FieldValue) : OverflowsOnly (constantValue value) :=
  (overflowsOnly_valueIndex value).bind fun _ =>
    (ConstantPool.overflowsOnly_utf8Index constantValueName).bind fun _ =>
      ConstantPool.overflowsOnly_pure _

theorem overflowsOnly_memberOf (spec : FieldSpec) : OverflowsOnly (memberOf spec) := by
  refine (ConstantPool.overflowsOnly_utf8Index spec.name).bind fun _ =>
    (ConstantPool.overflowsOnly_utf8Index spec.descriptor).bind fun _ => ?_
  cases spec.value with
  | none =>
    exact (ConstantPool.overflowsOnly_pure []).bind fun _ => ConstantPool.overflowsOnly_pure _
  | some value =>
    exact (overflowsOnly_constantValue value).bind fun _ =>
      (ConstantPool.overflowsOnly_pure _).bind fun _ => ConstantPool.overflowsOnly_pure _

/-- The texts that come in with a field are those of the description and the name of the
attribute. -/
theorem mem_texts_of_uses {s : String} (h : Uses spec s) :
    s ∈ spec.texts ∨ s = constantValueName := by
  unfold FieldSpec.texts
  rcases h with rfl | rfl | rfl | hvalue
  · exact .inl List.mem_cons_self
  · exact .inl (List.mem_cons_of_mem _ List.mem_cons_self)
  · exact .inr rfl
  · rw [hvalue]
    exact .inl (by simp)

theorem Initializes.fits {attributes : List Attribute} {value : Option FieldValue}
    (h : Initializes p attributes value) :
    attributes.length ≤ 65535 ∧ ∀ a ∈ attributes, a.info.length < 2 ^ 32 := by
  cases value with
  | none =>
    cases h
    exact ⟨Nat.zero_le _, fun _ ha => nomatch ha⟩
  | some value =>
    obtain ⟨nameIndex, index, rfl, -, -⟩ := h
    refine ⟨(by decide : 1 ≤ 65535), fun a ha => ?_⟩
    rw [List.mem_singleton.1 ha, Bytes.length_ofUInt16]
    decide

/-- A class file that can be written can still be written with one more field whose texts
fit. -/
theorem fits_addField (hc : c.Fits) (hle : c.pool.slots.size ≤ maxCount)
    (h : addField spec c = .ok () d) (htexts : ∀ s ∈ spec.texts, (encode s).length ≤ 65535) :
    d.Fits := by
  obtain ⟨-, hroom, m, hm, hd⟩ := addField_eq_ok h
  have hpool := (appends_memberOf spec).ok hm
  have hcount : d.pool.count ≤ 65535 := by
    rcases hpool.count with hcount | hsame
    · exact hcount
    · exact hsame ▸ hc.pool
  have hnew : ∀ s, Uses spec s → (encode s).length ≤ 65535 := by
    intro s hs
    rcases mem_texts_of_uses hs with hmem | rfl
    · exact htexts s hmem
    · decide
  obtain ⟨hlength, hbodies⟩ := (initializes_memberOf hle hm).fits
  have hmembers : ∀ m' ∈ c.fields ++ [m] ++ c.methods,
      m'.attributes.length ≤ 65535 ∧ ∀ a ∈ m'.attributes, a.info.length < 2 ^ 32 := by
    intro m' hm'
    rcases List.mem_append.1 hm' with hfield | hmethod
    · rcases List.mem_append.1 hfield with hold | hlast
      · exact ⟨hc.memberAttributes m' (List.mem_append_left _ hold),
          hc.memberBodies m' (List.mem_append_left _ hold)⟩
      · rw [List.mem_singleton.1 hlast]
        exact ⟨hlength, hbodies⟩
    · exact ⟨hc.memberAttributes m' (List.mem_append_right _ hmethod),
        hc.memberBodies m' (List.mem_append_right _ hmethod)⟩
  rw [hd]
  exact {
    pool := hcount
    texts := ((gains_memberOf spec).ok hm).length_le (hpool.size_le_maxCount hle) hc.texts hnew
    interfaces := hc.interfaces
    fields := by rwa [List.length_append]
    methods := hc.methods
    attributes := hc.attributes
    memberAttributes := fun m' hm' => (hmembers m' hm').1
    bodies := hc.bodies
    memberBodies := fun m' hm' => (hmembers m' hm').2 }

/-! ## When a field is refused -/

theorem addField_of_declares (h : c.Declares spec.name) :
    addField spec c = .error (.duplicateField spec.name) c :=
  (addField_eq spec c).trans (if_pos h)

/-- No other refusal says that a field is declared already. -/
theorem declares_of_duplicate {name : String}
    (h : addField spec c = .error (.duplicateField name) d) : c.Declares spec.name := by
  rw [addField_eq] at h
  split_ifs at h with hdup hfull
  · exact hdup
  · cases hm : memberOf spec c.pool with
    | ok m pool => rw [hm] at h; cases h
    | error reason pool =>
      rw [hm, overflowsOnly_memberOf spec _ _ _ hm] at h
      cases h
  · cases h

theorem exists_addField_eq_ok (hnew : ¬ c.Declares spec.name) (hfields : c.fields.length < 65535)
    (hroom : c.pool.count ≤ 65530) : ∃ d, addField spec c = .ok () d := by
  have hslots : c.pool.count + 5 ≤ maxCount := Nat.add_le_add_right hroom 5
  obtain ⟨m, pool, hm, -⟩ := takesAtMost_memberOf spec c.pool hslots
  exact ⟨_, addField_of_memberOf hnew (Nat.succ_le_of_lt hfields) hm⟩

/-- Adding a field: what is read back, that the class file can still be written, when the
field is refused as declared, and where there is always room for it. -/
theorem added_field_reads_back (hc : c.pool.Obtained) (hin : c.IndicesInside)
    (spec : FieldSpec) :
    (∀ d, addField spec c = .ok () d → (∃ m, AddedField spec c d m) ∧
      ((∃ bytes, c.toBytes = .ok bytes) → (∀ s ∈ spec.texts, (encode s).length ≤ 65535) →
        ∃ bytes, d.toBytes = .ok bytes)) ∧
    (c.Declares spec.name → addField spec c = .error (.duplicateField spec.name) c) ∧
    (∀ name d, addField spec c = .error (.duplicateField name) d → c.Declares spec.name) ∧
    (¬ c.Declares spec.name → c.fields.length < 65535 → c.pool.count ≤ 65530 →
      ∃ d, addField spec c = .ok () d) := by
  refine ⟨fun d h => ⟨addedField_of_addField hc.size_le hin h, fun hbytes htexts => ?_⟩,
    addField_of_declares, fun _ _ => declares_of_duplicate, exists_addField_eq_ok⟩
  exact exists_toBytes_iff.2 (fits_addField (exists_toBytes_iff.1 hbytes) hc.size_le h htexts)

/-- A text constant whose name, descriptor and value are texts of their own, the value
being the name of a field that is there. -/
def labelSpec : FieldSpec where
  name := "label"
  descriptor := "Ljava/lang/String;"
  accessFlags := .staticFlag
  value := some (.string "x")

theorem label_reads_back : listingSample.pool.Obtained ∧ listingSample.IndicesInside ∧
    ∃ d m, addField labelSpec listingSample = .ok () d ∧ AddedField labelSpec listingSample d m ∧
      ∃ bytes, d.toBytes = .ok bytes := by
  have hclosed := listingSample_appends.1
  obtain ⟨hadded, -, -, hroom⟩ := added_field_reads_back hclosed.pool hclosed.fields labelSpec
  obtain ⟨d, hd⟩ := hroom (by decide +kernel) (by decide +kernel) (by decide +kernel)
  obtain ⟨⟨m, hm⟩, hbytes⟩ := hadded d hd
  have hfits : ∃ bytes, listingSample.toBytes = .ok bytes :=
    exists_eq_ok_of_isOk (by decide +kernel)
  exact ⟨hclosed.pool, hclosed.fields, d, m, hd, hm, hbytes hfits (by decide +kernel)⟩

/-! ## Taking a field away and adding it again -/

/-- What is left of a class file when the field that was added goes again: the constants. -/
theorem removeField_addField (hin : c.IndicesInside) (hle : c.pool.slots.size ≤ maxCount)
    (h : addField spec c = .ok () d) :
    removeField spec.name d = .ok true { c with pool := d.pool } := by
  obtain ⟨hnew, -, m, hm, hd⟩ := addField_eq_ok h
  have hpool := (appends_memberOf spec).ok hm
  have hold : ∀ m' ∈ c.fields, ¬ d.hasName [spec.name] m' = true := by
    intro m' hm' hname
    rw [hasName_of_appends (hin m' hm') hpool] at hname
    obtain ⟨_, hmem, hname⟩ := hasName_iff.1 hname
    rw [List.mem_singleton.1 hmem] at hname
    exact hnew (declares_iff.2 ⟨m', hm', hname⟩)
  have hlast : d.hasName [spec.name] m = true :=
    hasName_iff.2 ⟨_, List.mem_singleton_self _, (memberOf_describes hle hm).name⟩
  have hfields : d.fields.eraseP (d.hasName [spec.name]) = c.fields := by
    rw [congrArg ClassFile.fields hd, List.eraseP_append_right _ hold,
      List.eraseP_cons_of_pos hlast, List.append_nil]
  have hdeclared : (d.declaredField? spec.name).isSome = true := (declared_addField hle h).2
  rw [removeField_eq_eraseP, hdeclared, hfields, hd]

/-- Where another field is found does not change. -/
theorem declaredField?_addField {name : String} (hin : c.IndicesInside)
    (hle : c.pool.slots.size ≤ maxCount) (h : addField spec c = .ok () d)
    (hname : name ≠ spec.name) : d.declaredField? name = c.declaredField? name := by
  obtain ⟨-, -, m, hm, hd⟩ := addField_eq_ok h
  have hpool := (appends_memberOf spec).ok hm
  have hold := declaredField?_of_appends (d := { c with pool := d.pool }) hin hpool rfl name
  have hlast : [m].find? (d.hasName [name]) = none := by
    refine List.find?_cons_of_neg fun hlast => hname ?_
    obtain ⟨_, hmem, hlast⟩ := hasName_iff.1 hlast
    rw [List.mem_singleton.1 hmem, (memberOf_describes hle hm).name] at hlast
    simp only [Option.some.injEq, Constant.utf8.injEq] at hlast
    exact (ModifiedUtf8.encode_injective hlast).symm
  rw [declaredField?_eq_find?] at hold ⊢
  rw [congrArg ClassFile.fields hd, List.find?_append, hlast, Option.or_none]
  exact hold

theorem settles_memberOf (h : ∀ value ∈ spec.value, Settles (valueIndex value)) :
    Settles (memberOf spec) := by
  refine ConstantPool.settles_bind (ConstantPool.settles_utf8Index _) fun _ =>
    ConstantPool.settles_bind (ConstantPool.settles_utf8Index _) fun _ => ?_
  cases hv : spec.value with
  | none =>
    exact ConstantPool.settles_bind (ConstantPool.settles_pure []) fun _ =>
      ConstantPool.settles_pure _
  | some value =>
    have hvalue : Settles (constantValue value) :=
      ConstantPool.settles_bind (h value hv) fun _ =>
        ConstantPool.settles_bind (ConstantPool.settles_utf8Index _) fun _ =>
          ConstantPool.settles_pure _
    exact ConstantPool.settles_bind hvalue fun _ =>
      ConstantPool.settles_bind (ConstantPool.settles_pure _) fun _ => ConstantPool.settles_pure _

/-- With the constants of the field left, adding it again leads to the same class file, if
the constants for its value are looked up and not always added. -/
theorem addField_again (hin : c.IndicesInside)
    (hvalue : ∀ value ∈ spec.value, Settles (valueIndex value))
    (h : addField spec c = .ok () d) : addField spec { c with pool := d.pool } = .ok () d := by
  obtain ⟨hnew, hroom, m, hm, hd⟩ := addField_eq_ok h
  have hpool := (appends_memberOf spec).ok hm
  have hnew' : ¬ ({ c with pool := d.pool } : ClassFile).Declares spec.name := by
    unfold Declares at hnew ⊢
    rwa [declaredField?_of_appends (d := { c with pool := d.pool }) hin hpool rfl]
  obtain ⟨hextends, hsame⟩ := settles_memberOf hvalue _ _ _ hm
  exact (addField_of_memberOf hnew' hroom (hsame d.pool (.refl _))).trans
    (congrArg (EStateM.Result.ok ()) hd.symm)

end ClassFile

end ClassStamp
