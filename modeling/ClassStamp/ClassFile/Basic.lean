import ClassStamp.AccessFlags
import ClassStamp.ClassFile.ConstantPool

/-!
# Class files

The parts of one compiled class. Names and descriptors are indices into the
constant pool, and attributes are kept as bytes, so that whatever is not
edited is written as it was read.

* `ClassFile.name`, `superName?` and `interfaceNames` read the names of the
  class and of those it builds on;
* `ClassFile.declaredField?` finds a field and `attribute?` an attribute by
  name; `declaredField?_eq` and `attribute?_eq` say which.
-/

namespace ClassStamp

/-- A named run of bytes. -/
structure Attribute where
  /-- The index of the name. -/
  nameIndex : UInt16
  /-- The bytes. -/
  info : Bytes
  deriving DecidableEq

/-- A field or a method. -/
structure Member where
  /-- The properties. -/
  accessFlags : AccessFlags
  /-- The index of the name. -/
  nameIndex : UInt16
  /-- The index of the type descriptor. -/
  descriptorIndex : UInt16
  /-- The attributes in file order. -/
  attributes : List Attribute
  deriving DecidableEq

/-- A compiled class. -/
structure ClassFile where
  /-- The minor part of the format version. -/
  minorVersion : UInt16
  /-- The major part of the format version. -/
  majorVersion : UInt16
  /-- The constants. -/
  pool : ConstantPool
  /-- The properties of the class. -/
  accessFlags : AccessFlags
  /-- The index of the name of the class. -/
  thisClass : UInt16
  /-- The index of the name of the superclass, or zero. -/
  superClass : UInt16
  /-- The indices of the names of the interfaces. -/
  interfaces : List UInt16
  /-- The fields in file order. -/
  fields : List Member
  /-- The methods in file order. -/
  methods : List Member
  /-- The attributes of the class in file order. -/
  attributes : List Attribute
  deriving DecidableEq

namespace ClassFile

/-- The four bytes that every class file begins with. -/
def magic : UInt32 := 0xCAFEBABE

/-- The major version of a new class file. -/
def defaultMajorVersion : UInt16 := 52

/-- The attribute that holds the value of a constant field. -/
def constantValueName : String := "ConstantValue"

/-- The attribute that lists the classes declared inside a class. -/
def innerClassesName : String := "InnerClasses"

/-- The class file that has nothing in it. -/
def empty : ClassFile :=
  { minorVersion := 0, majorVersion := 0, pool := .empty, accessFlags := .empty,
    thisClass := 0, superClass := 0, interfaces := [], fields := [], methods := [],
    attributes := [] }

instance : Inhabited ClassFile := ⟨empty⟩

/-- The class file of a class without members. -/
def new (name : ClassName) (superName : Option ClassName) (accessFlags : AccessFlags) :
    Except ClassFileError ClassFile :=
  let indices : ConstantPool.Edit (UInt16 × UInt16) := do
    let thisClass ← ConstantPool.classIndex name
    match superName with
    | none => return (thisClass, 0)
    | some n => return (thisClass, ← ConstantPool.classIndex n)
  match indices.run .empty with
  | .error e _ => .error e
  | .ok (thisClass, superClass) pool =>
    .ok { empty with
      majorVersion := defaultMajorVersion, pool, accessFlags, thisClass, superClass }

/-- The name of the class. -/
def name (c : ClassFile) : Except ClassFileError ClassName := c.pool.className c.thisClass

/-- The name of the superclass; a class may have none. -/
def superName? (c : ClassFile) : Except ClassFileError (Option ClassName) :=
  if c.superClass = 0 then .ok none else (c.pool.className c.superClass).map some

/-- The names of the interfaces in file order. -/
def interfaceNames (c : ClassFile) : Except ClassFileError (List ClassName) :=
  let names := c.pool.cells c.pool.className
  c.interfaces.mapM (ConstantPool.valueAt names c.pool.className)

/-- Whether the class is an interface. -/
def isInterface (c : ClassFile) : Bool := c.accessFlags.contains .interfaceFlag

/-- The name of a field or method of the class. -/
def memberName (c : ClassFile) (m : Member) : Except ClassFileError String :=
  c.pool.utf8 m.nameIndex

/-- The type descriptor of a field or method of the class. -/
def memberDescriptor (c : ClassFile) (m : Member) : Except ClassFileError String :=
  c.pool.utf8 m.descriptorIndex

/-- The slots that hold the given text. Texts are compared byte by byte. -/
def named (c : ClassFile) (name : String) : Array Bool :=
  c.pool.holders (ModifiedUtf8.encode name)

/-- The first field of the given name. -/
def declaredField? (c : ClassFile) (name : String) : Option Member :=
  let names := c.named name
  c.fields.find? fun m => ConstantPool.isMarked names m.nameIndex

/-- The names of the fields in file order. -/
def declaredFieldNames (c : ClassFile) : Except ClassFileError (List String) :=
  let texts := c.pool.cells c.pool.utf8
  c.fields.mapM fun m => ConstantPool.valueAt texts c.pool.utf8 m.nameIndex

/-- The first attribute of the given name. -/
def attribute? (c : ClassFile) (name : String) : Option Attribute :=
  let names := c.named name
  c.attributes.find? fun a => ConstantPool.isMarked names a.nameIndex

theorem interfaceNames_eq (c : ClassFile) :
    c.interfaceNames = c.interfaces.mapM c.pool.className := by
  simp only [interfaceNames, ConstantPool.valueAt_cells]

theorem declaredFieldNames_eq (c : ClassFile) :
    c.declaredFieldNames = c.fields.mapM c.memberName := by
  simp only [declaredFieldNames, ConstantPool.valueAt_cells]
  rfl

theorem declaredField?_eq (c : ClassFile) (name : String) :
    c.declaredField? name = c.fields.find? fun m =>
      c.pool.get? m.nameIndex == some (.utf8 (ModifiedUtf8.encode name)) := by
  simp only [declaredField?, named, ConstantPool.isMarked_holders]

theorem attribute?_eq (c : ClassFile) (name : String) :
    c.attribute? name = c.attributes.find? fun a =>
      c.pool.get? a.nameIndex == some (.utf8 (ModifiedUtf8.encode name)) := by
  simp only [attribute?, named, ConstantPool.isMarked_holders]

end ClassFile

end ClassStamp
