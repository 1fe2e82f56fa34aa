import ClassStamp.ClassFile.Format

/-!
# Editing class files

The changes that a class file allows. Each looks up or adds the constants that
it needs and then changes one list of the class file. A change that fails may
leave constants behind at the end of the pool, and nothing else.

* `ClassFile.addField` and `removeField`, `addInterface`, `setInnerClasses`;
* `encodeRows_nil`: a row that was written once is not looked up again, and
  that changes nothing;
* `ClassFile.innerClasses` reads back what `setInnerClasses` wrote, and
  `nestedClassNames` the names of the classes directly inside this one.
-/

namespace ClassStamp

/-- The value that a constant field has from the start. -/
inductive FieldValue
  | int (value : Int32)
  | long (value : Int64)
  | string (value : String)
  deriving DecidableEq

/-- A field to be added to a class. -/
structure FieldSpec where
  /-- The name. -/
  name : String
  /-- The type descriptor. -/
  descriptor : String
  /-- The properties. -/
  accessFlags : AccessFlags
  /-- The value of a constant field. -/
  value : Option FieldValue
  deriving DecidableEq

/-- A row of the list of the classes declared inside a class. -/
structure InnerClass where
  /-- The class declared inside another one. -/
  inner : ClassName
  /-- The class that it is a member of, if it is a member. -/
  outer : Option ClassName
  /-- Its name in the source text, if it has one. -/
  simpleName : Option String
  /-- The properties in the source text. -/
  accessFlags : AccessFlags
  deriving DecidableEq

/-- The type descriptor of a boolean. -/
def booleanDescriptor : String := "Z"

/-- A field with a boolean value from the start. -/
def FieldSpec.booleanConstant (name : String) (accessFlags : AccessFlags) (value : Bool) :
    FieldSpec :=
  { name, descriptor := booleanDescriptor, accessFlags,
    value := some (.int (if value then 1 else 0)) }

namespace ClassFile

/-- A change of a class file. What a change did before it failed stays. -/
abbrev Edit := EStateM ClassFileError ClassFile

namespace Edit

/-- A change of the constant pool. -/
def onPool {α : Type} (edit : ConstantPool.Edit α) : Edit α := fun c =>
  match edit c.pool with
  | .ok a pool => .ok a { c with pool }
  | .error e pool => .error e { c with pool }

/-- Refuses a list that is too long for its length field. -/
def checkCount (what : CountedList) (n : Nat) : Edit Unit :=
  if n ≤ 65535 then pure () else throw (.tooManyMembers what)

end Edit

open Edit
open ConstantPool (Extends Settles settles_pure settles_bind settles_utf8Index
  settles_classIndex)

/-! ## Fields -/

/-- The index of the constant that holds the value of a field. -/
def valueIndex : FieldValue → ConstantPool.Edit UInt16
  | .int value => ConstantPool.integerIndex value
  | .long value => ConstantPool.push (.long value)
  | .string value => do
    let stringIndex ← ConstantPool.utf8Index value
    ConstantPool.push (.string stringIndex)

/-- The attribute that gives a field its value from the start. -/
def constantValue (value : FieldValue) : ConstantPool.Edit Attribute := do
  let index ← valueIndex value
  let nameIndex ← ConstantPool.utf8Index constantValueName
  return { nameIndex, info := Bytes.ofUInt16 index }

/-- The field of a class file with the given pool that a description asks
for. -/
def memberOf (spec : FieldSpec) : ConstantPool.Edit Member := do
  let nameIndex ← ConstantPool.utf8Index spec.name
  let descriptorIndex ← ConstantPool.utf8Index spec.descriptor
  let attributes ← match spec.value with
    | none => pure []
    | some value => pure [← constantValue value]
  return { accessFlags := spec.accessFlags, nameIndex, descriptorIndex, attributes }

/-- Adds a field behind the others, unless one of that name is there. -/
def addField (spec : FieldSpec) : Edit Unit := do
  let c ← get
  if (c.declaredField? spec.name).isSome then throw (.duplicateField spec.name)
  checkCount .fields (c.fields.length + 1)
  let field ← onPool (memberOf spec)
  modify fun c => { c with fields := c.fields ++ [field] }

/-- Removes the first field of the given name and tells whether there was
one. -/
def removeField (name : String) : Edit Bool := do
  let c ← get
  let names := c.named name
  match c.fields.findIdx? fun m => ConstantPool.isMarked names m.nameIndex with
  | none => return false
  | some i =>
    set { c with fields := c.fields.eraseIdx i }
    return true

/-! ## Interfaces -/

/-- Adds an interface behind the others and tells whether it was missing. -/
def addInterface (name : ClassName) : Edit Bool := do
  let index ← onPool (ConstantPool.classIndex name)
  let c ← get
  if c.interfaces.contains index then return false
  checkCount .interfaces (c.interfaces.length + 1)
  set { c with interfaces := c.interfaces ++ [index] }
  return true

/-! ## Inner classes -/

/-- The index of an optional entry, which is zero if there is none. -/
def optionalIndex {α : Type} (index : α → ConstantPool.Edit UInt16) :
    Option α → ConstantPool.Edit UInt16
  | none => return 0
  | some a => index a

/-- The bytes of a row. -/
def encodeInnerClass (row : InnerClass) : ConstantPool.Edit Bytes := do
  let inner ← ConstantPool.classIndex row.inner
  let outer ← optionalIndex ConstantPool.classIndex row.outer
  let simpleName ← optionalIndex ConstantPool.utf8Index row.simpleName
  return Bytes.ofUInt16 inner ++ Bytes.ofUInt16 outer ++ Bytes.ofUInt16 simpleName ++
    Bytes.ofUInt16 row.accessFlags.bits

theorem settles_optionalIndex {α : Type} {index : α → ConstantPool.Edit UInt16}
    (h : ∀ a, Settles (index a)) (entry : Option α) : Settles (optionalIndex index entry) := by
  cases entry with
  | none => exact settles_pure 0
  | some a => exact h a

theorem settles_encodeInnerClass (row : InnerClass) : Settles (encodeInnerClass row) :=
  settles_bind (settles_classIndex _) fun _ =>
    settles_bind (settles_optionalIndex settles_classIndex _) fun _ =>
      settles_bind (settles_optionalIndex settles_utf8Index _) fun _ => settles_pure _

/-- The bytes of rows. A row that is equal to an earlier one has the bytes of
that one. -/
def encodeRows (written : List (InnerClass × Bytes)) :
    List InnerClass → ConstantPool.Edit (List Bytes)
  | [] => return []
  | row :: rest => match written.lookup row with
    | some bytes => return bytes :: (← encodeRows written rest)
    | none => do
      let bytes ← encodeInnerClass row
      return bytes :: (← encodeRows ((row, bytes) :: written) rest)

theorem mem_of_lookup {row : InnerClass} {bytes : Bytes} {written : List (InnerClass × Bytes)}
    (h : written.lookup row = some bytes) : (row, bytes) ∈ written := by
  induction written with
  | nil => simp at h
  | cons e written ih =>
    obtain ⟨other, known⟩ := e
    rw [List.lookup_cons] at h
    split at h <;> simp_all

theorem encodeRows_of_settled (written : List (InnerClass × Bytes)) (rows : List InnerClass)
    (p : ConstantPool)
    (h : ∀ e ∈ written, ∀ r, Extends r p → encodeInnerClass e.1 r = .ok e.2 r) :
    encodeRows written rows p = rows.mapM encodeInnerClass p := by
  induction rows generalizing written p with
  | nil => rfl
  | cons row rest ih =>
    rw [encodeRows, List.mapM_cons]
    cases hrow : written.lookup row with
    | some bytes =>
      have hfixed := h _ (mem_of_lookup hrow) p (.refl p)
      simp only at hfixed
      simp only [bind, EStateM.bind, hfixed, ih written p h]
    | none =>
      simp only [bind, EStateM.bind]
      cases hbytes : encodeInnerClass row p with
      | error e q => rfl
      | ok bytes q =>
        obtain ⟨hqp, hq⟩ := settles_encodeInnerClass row p bytes q hbytes
        simp only
        rw [ih]
        intro e he r hr
        rcases List.mem_cons.1 he with rfl | he
        · exact hq r hr
        · exact h e he r (hqp.trans hr)

/-- Writing a row again changes nothing. -/
theorem encodeRows_nil (rows : List InnerClass) :
    encodeRows [] rows = rows.mapM encodeInnerClass :=
  funext fun p => encodeRows_of_settled [] rows p (by simp)

/-- The attribute that lists the given rows. -/
def innerClassesAttribute (rows : List InnerClass) : ConstantPool.Edit Attribute := do
  let parts ← encodeRows [] rows
  let nameIndex ← ConstantPool.utf8Index innerClassesName
  return { nameIndex, info := Bytes.ofUInt16 (UInt16.ofNat rows.length) ++ parts.flatten }

/-- Lists the given rows as the inner classes, in place of what was listed. -/
def setInnerClasses (rows : List InnerClass) : Edit Unit := do
  checkCount .innerClasses rows.length
  let listing ← onPool (innerClassesAttribute rows)
  modify fun c => { c with
    attributes :=
      c.attributes.filter (fun a => a.nameIndex != listing.nameIndex) ++ [listing] }

/-- The entry at an index, where zero stands for none. -/
def optionalEntry {α : Type} (entry : UInt16 → Except ClassFileError α) (index : UInt16) :
    Except ClassFileError (Option α) :=
  if index = 0 then .ok none else (entry index).map some

/-- Reads a row, with the names and texts at the indices of a pool. -/
def readInnerClass (className : UInt16 → Except ClassFileError ClassName)
    (utf8 : UInt16 → Except ClassFileError String) : Decoder InnerClass := do
  let inner ← Decoder.u16
  let outer ← Decoder.u16
  let simpleName ← Decoder.u16
  let accessFlags ← Decoder.u16
  return {
    inner := ← className inner
    outer := ← optionalEntry className outer
    simpleName := ← optionalEntry utf8 simpleName
    accessFlags := ⟨accessFlags⟩ }

/-- The rows of the list of inner classes; bytes behind the last row do not
count. -/
def innerClasses (c : ClassFile) : Except ClassFileError (List InnerClass) :=
  match c.attribute? innerClassesName with
  | none => .ok []
  | some listing =>
    let names := c.pool.cells c.pool.className
    let texts := c.pool.cells c.pool.utf8
    let row := readInnerClass (ConstantPool.valueAt names c.pool.className)
      (ConstantPool.valueAt texts c.pool.utf8)
    ((Decoder.counted row).run listing.info).map (·.1)

theorem innerClasses_eq (c : ClassFile) :
    c.innerClasses = match c.attribute? innerClassesName with
      | none => .ok []
      | some listing =>
        ((Decoder.counted (readInnerClass c.pool.className c.pool.utf8)).run listing.info).map
          (·.1) := by
  simp only [innerClasses, ConstantPool.valueAt_cells]

/-- The names of the listed classes that are directly inside this one, each
once, in the order of the list. -/
def nestedClassNames (c : ClassFile) : Except ClassFileError (List ClassName) := do
  let name ← c.name
  let rows ← c.innerClasses
  return (rows.map (·.inner)).eraseDups.filter (·.isImmediateMemberOf name)

end ClassFile

end ClassStamp
