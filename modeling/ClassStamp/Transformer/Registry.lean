import ClassStamp.Transformer.MarkerField

/-!
# Registries of transformers

The transformers that a configuration can ask for by name.

* `Registry.register` adds one under a new name;
* `Registry.instantiate` makes and sets up the one that is asked for.
-/

namespace ClassStamp

/-- Why a transformer cannot be registered or made. -/
inductive RegistryError
  /-- The name is blank. -/
  | blankName
  /-- No transformer has the name. -/
  | unknownUnit (name : String)
  /-- A transformer has the name already. -/
  | duplicate (name : String)
  /-- The transformer refuses its settings. -/
  | configure (name : String) (reason : TransformError)
  deriving DecidableEq

/-- The text shown for the error. -/
def RegistryError.message : RegistryError → String
  | blankName => "transformer name must not be blank"
  | unknownUnit name => s!"unknown transformer: '{name}'"
  | duplicate name => s!"transformer '{name}' is already registered"
  | configure name reason => s!"cannot configure transformer '{name}': {reason.message}"

instance : ToString RegistryError := ⟨RegistryError.message⟩

/-- A transformer that a configuration asks for. -/
structure UnitConfig where
  /-- The name that it is registered under. -/
  name : String
  /-- Its settings. -/
  settings : Settings
  deriving DecidableEq

/-- A way to make a transformer from its settings. -/
abbrev Factory := Settings → Except TransformError Transformer

/-- Transformers under names, in the order in which they were registered. -/
structure Registry where
  /-- The names with the ways to make the transformers. -/
  factories : List (String × Factory)

namespace Registry

/-- The registry without transformers. -/
def empty : Registry := ⟨[]⟩

/-- The registered names in order. -/
def names (r : Registry) : List String := r.factories.map (·.1)

/-- Whether a name is registered; blanks around it do not count. -/
def contains (r : Registry) (name : String) : Bool := r.names.contains (Text.trim name)

/-- Adds a transformer under a name that is not registered; blanks around the
name do not count. -/
def register (r : Registry) (name : String) (factory : Factory) :
    Except RegistryError Registry :=
  let name := Text.trim name
  if name = "" then .error .blankName
  else if r.names.contains name then .error (.duplicate name)
  else .ok ⟨r.factories ++ [(name, factory)]⟩

/-- Makes the transformer that is asked for. -/
def instantiate (r : Registry) (config : UnitConfig) : Except RegistryError Transformer :=
  let name := Text.trim config.name
  if name = "" then .error .blankName
  else match r.factories.lookup name with
    | none => .error (.unknownUnit name)
    | some factory => (factory config.settings).mapError (.configure name)

/-- Makes the transformers that are asked for, in order. -/
def instantiateAll (r : Registry) (configs : List UnitConfig) :
    Except RegistryError (List Transformer) :=
  configs.mapM r.instantiate

/-- Makes a marker field transformer. -/
def markerField : Factory := fun settings =>
  match MarkerField.configure settings .default with
  | .error e _ => .error e
  | .ok () m => .ok m.transformer

/-- The transformers that are always there. -/
def builtin : Registry := ⟨[(MarkerField.unitName, markerField)]⟩

end Registry

end ClassStamp
