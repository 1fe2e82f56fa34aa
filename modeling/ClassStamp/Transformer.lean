import ClassStamp.Stamp

/-!
# Transformers

A transformer decides for each class whether it wants to act on it, and then
edits the class and the classes held with it in place.

* `Transformer` is that pair of decisions under an identity;
* `TransformError` is what either of them may answer instead.
-/

namespace ClassStamp

/-- Why a transformer does not do its work. The source, if given, is the text
of the error that led to this one. -/
inductive TransformError
  /-- The transformer could not be set up. -/
  | build (text : String) (source : Option String)
  /-- The transformer could not be applied to a class. -/
  | cannotApply (text : String) (source : Option String)
  deriving DecidableEq

namespace TransformError

/-- The text shown for the error. -/
def message : TransformError → String
  | build text _ => s!"transformation build failed: {text}"
  | cannotApply text _ => s!"cannot apply transformation: {text}"

instance : ToString TransformError := ⟨message⟩

/-- The text of the error that led to this one. -/
def source? : TransformError → Option String
  | build _ source | cannotApply _ source => source

/-- Whether the transformer could not be set up. -/
def isBuild : TransformError → Bool
  | build _ _ => true
  | cannotApply _ _ => false

/-- The error with the text of another one that led to it. -/
def withSource (source : String) : TransformError → TransformError
  | build text _ => build text (some source)
  | cannotApply text _ => cannotApply text (some source)

/-- The error of a transformer that met the error of the given text. -/
def ofMessage (text : String) : TransformError := cannotApply text (some text)

/-- The error of a transformer that an artifact refused an operation. -/
def ofArtifact (e : ArtifactError) : TransformError := ofMessage e.message

/-- The error of a transformer that could not read or edit a class file. -/
def ofClassFile (e : ClassFileError) : TransformError := ofMessage e.message

/-- The error of a transformer that could not stamp a class. -/
def ofStamp (e : StampError) : TransformError := ofMessage e.message

end TransformError

/-- A rule that edits classes. -/
structure Transformer where
  /-- The name that the stamp of the transformer is made from. -/
  identity : String
  /-- Whether the transformer wants to act on a class. -/
  shouldTransform : Artifact → Except TransformError Bool
  /-- Edits a class and the classes held with it. -/
  apply : EStateM TransformError Artifact Unit

namespace Transformer

/-- The stamp of the transformer. -/
def stamp (t : Transformer) : Stamp := Stamp.forIdentity t.identity

/-- Runs an operation on an artifact as a part of a transformation. -/
def onArtifact {α : Type} (edit : Artifact.Edit α) : EStateM TransformError Artifact α :=
  fun a => match edit a with
    | .ok r a => .ok r a
    | .error e a => .error (.ofArtifact e) a

end Transformer

end ClassStamp
