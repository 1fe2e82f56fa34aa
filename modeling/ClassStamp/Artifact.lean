import ClassStamp.ClassFile.Edit
import ClassStamp.ContentHash

/-!
# Artifacts

A class in memory during a run: its class file, whether something opened it
for editing, the bytes it was written as, and the classes directly inside it
that are held with it.

* `Artifact.beginEdit` gives access for editing and is refused while the artifact
  is frozen;
* `Artifact.freeze` fixes the bytes, which `toBytes` answers until `defrost`;
* `Artifact.attachNested` takes in a class, by its name a direct member, in
  place of one of the same name.
-/

namespace ClassStamp

/-- A class in memory. -/
structure Artifact where
  /-- The name of the class when it was read or made. -/
  name : ClassName
  /-- The class file. -/
  classFile : ClassFile
  /-- Whether the class file was opened for editing. -/
  isModified : Bool
  /-- The bytes that the class file was fixed as. -/
  frozen : Option Bytes
  /-- The classes directly inside this one that are held with it. -/
  nested : List Artifact

/-- Why an operation on an artifact is refused. -/
inductive ArtifactError
  /-- The artifact is frozen. -/
  | frozen (name : ClassName)
  /-- The class file is that of another class. -/
  | nameMismatch (expected actual : ClassName)
  /-- The one class is not directly inside the other. -/
  | notNested (outer nested : ClassName)
  /-- Reading, writing or editing the class file failed. -/
  | classFile (reason : ClassFileError)
  deriving DecidableEq

/-- The text shown for the error. -/
def ArtifactError.message : ArtifactError → String
  | frozen name => s!"artifact {name.text} is frozen"
  | nameMismatch expected actual =>
    s!"class file declares {actual.text}, expected {expected.text}"
  | notNested outer nested => s!"{nested.text} is not nested directly in {outer.text}"
  | classFile reason => reason.message

instance : ToString ArtifactError := ⟨ArtifactError.message⟩

namespace Artifact

/-! ## Equality -/

mutual

/-- Whether two artifacts agree in everything. -/
def beq : Artifact → Artifact → Bool
  | ⟨name, classFile, isModified, frozen, nested⟩,
    ⟨name', classFile', isModified', frozen', nested'⟩ =>
    name == name' && classFile == classFile' && isModified == isModified' &&
      frozen == frozen' && beqList nested nested'

/-- Whether two lists of artifacts agree one by one. -/
def beqList : List Artifact → List Artifact → Bool
  | [], [] => true
  | a :: as, b :: bs => beq a b && beqList as bs
  | _, _ => false

end

instance : BEq Artifact := ⟨beq⟩

/-! ## Making artifacts -/

/-- The artifact of a class file. -/
def new (classFile : ClassFile) : Except ArtifactError Artifact :=
  match classFile.name with
  | .error e => .error (.classFile e)
  | .ok name => .ok { name, classFile, isModified := false, frozen := none, nested := [] }

/-- The artifact of the bytes of the class with the expected name. -/
def ofBytes (expected : ClassName) (bytes : Bytes) : Except ArtifactError Artifact :=
  match ClassFile.parse bytes with
  | .error e => .error (.classFile e)
  | .ok classFile => match new classFile with
    | .error e => .error e
    | .ok a =>
      if a.name = expected then .ok a else .error (.nameMismatch expected a.name)

/-! ## Editing and freezing -/

/-- A change of an artifact. What a change did before it failed stays. -/
abbrev Edit := EStateM ArtifactError Artifact

/-- Whether the artifact is frozen. -/
def isFrozen (a : Artifact) : Bool := a.frozen.isSome

/-- Whether the class is an interface. -/
def isInterface (a : Artifact) : Bool := a.classFile.isInterface

/-- Opens the artifact for editing, which counts as a modification. -/
def beginEdit : Edit Unit := fun a =>
  if a.isFrozen then .error (.frozen a.name) a else .ok () { a with isModified := true }

/-- Edits the class file. -/
def edit {α : Type} (change : ClassFile.Edit α) : Edit α := do
  beginEdit
  fun a => match change a.classFile with
    | .ok r classFile => .ok r { a with classFile }
    | .error e classFile => .error (.classFile e) { a with classFile }

/-- The artifact as if nothing had opened it. -/
def clearModified (a : Artifact) : Artifact := { a with isModified := false }

/-- The bytes of the artifact: those it is frozen as, else those of its class
file. -/
def toBytes (a : Artifact) : Except ArtifactError Bytes :=
  match a.frozen with
  | some bytes => .ok bytes
  | none => a.classFile.toBytes.mapError .classFile

/-- Fixes the bytes of the artifact. -/
def freeze : Edit Bytes := fun a =>
  match a.toBytes with
  | .ok bytes => .ok bytes { a with frozen := some bytes }
  | .error e => .error e a

/-- The artifact with its bytes no longer fixed. -/
def defrost (a : Artifact) : Artifact := { a with frozen := none }

/-- The digest of the bytes of the artifact. -/
def contentHash (a : Artifact) : Except ArtifactError ContentHash :=
  a.toBytes.map ContentHash.compute

/-! ## Nested artifacts -/

/-- Takes in a class directly inside this one, behind the others and in place
of one of the same name. -/
def attachNested (nested : Artifact) : Edit Unit := fun a =>
  if nested.name.isImmediateMemberOf a.name then
    .ok () { a with nested := a.nested.filter (fun n => n.name != nested.name) ++ [nested] }
  else .error (.notNested a.name nested.name) a

/-- The artifact without the classes held with it. -/
def withoutNested (a : Artifact) : Artifact := { a with nested := [] }

/-- Does something to the class that some positions lead to, each the position
of a class among those held with the one before. If they lead nowhere, nothing
is done and nothing answered. -/
def within {ε α : Type} : List Nat → EStateM ε Artifact α → EStateM ε Artifact (Option α)
  | [], act => some <$> act
  | i :: rest, act => fun a => match a.nested[i]? with
    | none => .ok none a
    | some n => match within rest act n with
      | .ok r n => .ok r { a with nested := a.nested.set i n }
      | .error e n => .error e { a with nested := a.nested.set i n }

/-! ## Description -/

/-- One line about the class: name, version, modifiers, superclass,
interfaces and the number of members. Names that cannot be read are left
out. -/
def describe (a : Artifact) : String :=
  let c := a.classFile
  let head := s!"{a.name.text} v{c.majorVersion}.{c.minorVersion} [{c.accessFlags.modifiers}]"
  let superclass := match c.superName? with
    | .ok (some n) => s!" extends {n.text}"
    | _ => ""
  let interfaces := match c.interfaceNames with
    | .ok (n :: ns) => " implements " ++ ", ".intercalate ((n :: ns).map (·.text))
    | _ => ""
  let counts :=
    s!" ({c.fields.length} fields, {c.methods.length} methods, {a.nested.length} nested)"
  head ++ superclass ++ interfaces ++ counts

end Artifact

end ClassStamp
