import ClassStamp.Artifact

/-!
# Stamps

The mark that a transformer leaves on every class it transformed: a constant
boolean field whose name is made from the identity of the transformer. The
field is in the class file, so that a later run finds it there.

* `Stamp.forIdentity` makes the field name, `isPresent` looks for it;
* `Stamp.apply` adds the field and `Stamp.remove` takes it away.
-/

namespace ClassStamp

/-- The mark of a transformer. -/
structure Stamp where
  /-- The name of the field. -/
  field : String
  deriving DecidableEq

/-- Why a stamp cannot be applied or removed. -/
inductive StampError
  /-- The class carries the stamp already. -/
  | alreadyPresent (name : ClassName) (field : String)
  /-- The artifact refuses the edit. -/
  | artifact (reason : ArtifactError)
  deriving DecidableEq

/-- The text shown for the error. -/
def StampError.message : StampError → String
  | alreadyPresent name field => s!"{name.text} already carries stamp {field}"
  | artifact reason => reason.message

instance : ToString StampError := ⟨StampError.message⟩

namespace Stamp

/-- What the name of every stamp field begins with. -/
def fieldPrefix : String := "__TRANSFORMED_BY_CLASSFORGE__"

/-- Whether a character stands for itself in the name of a stamp field. -/
def isWord (c : Char) : Bool := c.isAlphanum || c == '_'

/-- The stamp that belongs to no transformer in particular. -/
def general : Stamp := ⟨fieldPrefix⟩

/-- The stamp of the transformer with the given identity: every character
that is no ASCII letter, digit or underscore becomes an underscore. -/
def forIdentity (identity : String) : Stamp :=
  ⟨fieldPrefix ++ String.ofList (identity.toList.map fun c => if isWord c then c else '_')⟩

/-- The properties of a stamp field: static and final, and as little visible
as the kind of class allows. -/
def accessFlags (a : Artifact) : AccessFlags :=
  (if a.isInterface then AccessFlags.publicFlag else .privateFlag) ||| .staticFlag |||
    .finalFlag

/-- Whether the class carries the stamp. -/
def isPresent (s : Stamp) (a : Artifact) : Bool := (a.classFile.declaredField? s.field).isSome

/-- Adds the stamp to a class that does not carry it. -/
def apply (s : Stamp) : EStateM StampError Artifact Unit := fun a =>
  if s.isPresent a then .error (.alreadyPresent a.name s.field) a
  else
    let spec := FieldSpec.booleanConstant s.field (accessFlags a) true
    match Artifact.edit (ClassFile.addField spec) a with
    | .ok () a => .ok () a
    | .error e a => .error (.artifact e) a

/-- Removes the stamp and tells whether the class carried it. -/
def remove (s : Stamp) : EStateM StampError Artifact Bool := fun a =>
  if s.isPresent a then
    match Artifact.edit (ClassFile.removeField s.field) a with
    | .ok removed a => .ok removed a
    | .error e a => .error (.artifact e) a
  else .ok false a

end Stamp

end ClassStamp
