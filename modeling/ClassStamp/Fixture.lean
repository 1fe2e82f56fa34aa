import ClassStamp.ClassFile.Edit
import ClassStamp.Output

/-!
# Class fixtures

A class described in a few words, for trying things out: its name, what it
builds on, some integer fields, and the classes directly inside it.

* `Fixture.build` makes the class file, `Fixture.writeWithNested` puts it and
  plain classes for those inside it below a directory.
-/

namespace ClassStamp

/-- A class described in a few words. -/
structure Fixture where
  /-- The name. -/
  name : ClassName
  /-- The name of the superclass. -/
  superName : Option ClassName
  /-- The properties. -/
  accessFlags : AccessFlags
  /-- The interfaces. -/
  interfaces : List ClassName
  /-- The names of the fields. -/
  fields : List String
  /-- The classes directly inside. -/
  nested : List ClassName
  deriving DecidableEq

namespace Fixture

/-- The superclass of every class that does not name another one. -/
def objectName : ClassName :=
  ⟨"java.lang.Object", by constructor <;> simp [Text.split, ClassName.isForbidden]⟩

/-- A class without members. -/
def ofName (name : ClassName) : Fixture :=
  { name, superName := some objectName, accessFlags := .publicFlag ||| .superFlag,
    interfaces := [], fields := [], nested := [] }

/-- An interface without members. -/
def interface (name : ClassName) : Fixture :=
  { ofName name with accessFlags := .publicFlag ||| .interfaceFlag ||| .abstractFlag }

/-- The name of a class directly inside one. -/
def nestedName (outer : ClassName) (simpleName : String) : Except NameError ClassName :=
  ClassName.ofString? (outer.text ++ "$" ++ simpleName)

/-- A private integer field. -/
def fieldSpec (name : String) : FieldSpec :=
  { name, descriptor := "I", accessFlags := .privateFlag, value := none }

/-- The row about a class directly inside. -/
def innerClass (outer inner : ClassName) : InnerClass :=
  let last := (Text.split ClassName.nestedSeparator inner.simpleName.toList).getLastD []
  { inner, outer := some outer, simpleName := some (String.ofList last),
    accessFlags := .publicFlag ||| .staticFlag }

/-- The edits that make the class from one without members. -/
def edits (f : Fixture) : ClassFile.Edit Unit := do
  for interface in f.interfaces do
    let _ ← ClassFile.addInterface interface
  for field in f.fields do
    ClassFile.addField (fieldSpec field)
  if !f.nested.isEmpty then
    ClassFile.setInnerClasses (f.nested.map (innerClass f.name))

/-- The class file. -/
def build (f : Fixture) : Except ClassFileError ClassFile :=
  match ClassFile.new f.name f.superName f.accessFlags with
  | .error e => .error e
  | .ok c => match f.edits c with
    | .error e _ => .error e
    | .ok () c => .ok c

/-- Writes the class below a directory. -/
def writeTo (f : Fixture) (root : Path) : EStateM WriteError FileTree Unit := fun files =>
  match f.build >>= ClassFile.toBytes with
  | .error e => .error (.encode f.name (.classFile e)) files
  | .ok bytes => Output.writeFile (root.join f.name.relativePath) bytes files

/-- Writes plain classes for those inside, and then the class itself. -/
def writeWithNested (f : Fixture) (root : Path) : EStateM WriteError FileTree Unit := do
  for nested in f.nested do
    (ofName nested).writeTo root
  f.writeTo root

end Fixture

end ClassStamp
