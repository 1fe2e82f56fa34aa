import ClassStamp.Transformer
import ClassStamp.Transformer.Settings

/-!
# The marker field transformer

Adds one public constant boolean field to every class of some packages that
does not declare it.

* `MarkerField.configure` reads the settings `field` and `packages`;
* `MarkerField.transformer` is the rule. Its identity names the field, so two
  fields have two stamps.
-/

namespace ClassStamp

/-- The set-up of the transformer. -/
structure MarkerField where
  /-- The field to add. -/
  field : String
  /-- The packages to act on; none means all. -/
  packages : List String
  deriving DecidableEq

namespace MarkerField

/-- The name of the transformer in a configuration. -/
def unitName : String := "marker-field"

/-- The field that is added unless another one is set. -/
def defaultField : String := "__introspected__MarkerField"

/-- The transformer without settings. -/
def default : MarkerField := { field := defaultField, packages := [] }

/-- The characters that no field name holds. -/
def isForbidden (c : Char) : Bool :=
  c == '.' || c == ';' || c == '[' || c == '/' || c == '<' || c == '>'

/-- Whether a text is the name of a field. -/
def isFieldName (s : String) : Bool := s ≠ "" && !s.toList.any isForbidden

/-- The packages in a list with a comma between each two; blanks around them
and blank ones do not count. -/
def packagesOfText (s : String) : List String :=
  ((Text.split ',' s.toList).map fun cs => Text.trim (String.ofList cs)).filter (· ≠ "")

/-- The keys of the settings. -/
def keys : List String := ["field", "packages"]

/-- Takes the field from the settings. -/
def configureField (settings : Settings) : EStateM TransformError MarkerField Unit := do
  match settings.get? "field" with
  | none => pure ()
  | some value =>
    let field := Text.trim value
    if !isFieldName field then throw (.build s!"invalid field name '{field}'" none)
    modify fun m => { m with field }

/-- Takes the packages from the settings. -/
def configurePackages (settings : Settings) : EStateM TransformError MarkerField Unit :=
  match settings.get? "packages" with
  | none => pure ()
  | some value => modify fun m => { m with packages := packagesOfText value }

/-- Takes all settings in, and refuses one that there is no use for. -/
def configure (settings : Settings) : EStateM TransformError MarkerField Unit := do
  configureField settings
  configurePackages settings
  match settings.keys.find? fun key => !keys.contains key with
  | none => pure ()
  | some key => throw (.build s!"unknown setting '{key}'" none)

/-- The name that the stamp is made from. -/
def identity (m : MarkerField) : String := unitName ++ "." ++ m.field

/-- Whether the class is in one of the packages. -/
def inScope (m : MarkerField) (n : ClassName) : Bool :=
  m.packages.isEmpty || n.isInAny m.packages

/-- The field that is added. -/
def spec (m : MarkerField) : FieldSpec :=
  FieldSpec.booleanConstant m.field (.publicFlag ||| .staticFlag ||| .finalFlag) true

/-- The rule: act on a class in scope that does not declare the field, and add
the field. -/
def transformer (m : MarkerField) : Transformer where
  identity := m.identity
  shouldTransform a :=
    .ok (m.inScope a.name && (a.classFile.declaredField? m.field).isNone)
  apply := Transformer.onArtifact (Artifact.edit (ClassFile.addField m.spec))

end MarkerField

end ClassStamp
