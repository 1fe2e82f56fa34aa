import ClassStamp.FileTree
import ClassStamp.Toml.Document
import ClassStamp.Transformer.Registry

/-!
# Build configuration

The file that describes one project: where its classes are, what else belongs
on the classpath, and which transformers run in which order.

* `Config.ofToml?` reads a configuration, `Config.load` that of a file;
* `Config.resolve` places its directories below another one;
* `Config.validate` refuses a configuration without usable transformers.
-/

namespace ClassStamp.Build

/-- A project. -/
structure Config where
  /-- Whether to do nothing at all. -/
  skip : Bool
  /-- Whether the test classes are transformed as well. -/
  includeTestClasses : Bool
  /-- The directory of the main classes. -/
  buildDirectory : Path
  /-- The directory of the test classes. -/
  testBuildDirectory : Path
  /-- Where transformed main classes go; by default back to where they came
  from. -/
  outputDirectory : Option Path
  /-- Directories of classes that others need. -/
  classpath : List Path
  /-- The transformers in order. -/
  transformers : List UnitConfig
  deriving DecidableEq

/-- Why a configuration cannot be used. -/
inductive ConfigError
  /-- The file cannot be read. -/
  | io (path : Path) (reason : FileError)
  /-- The file is no configuration. -/
  | parse (path : Path)
  /-- There are no transformers. -/
  | noTransformers
  /-- The transformer at the position, counted from one, has a blank name. -/
  | blankTransformerName (position : Nat)
  deriving DecidableEq

/-- The text shown for the error. -/
def ConfigError.message : ConfigError → String
  | io path reason => s!"io error reading {path.text}: {reason.message}"
  | parse path => s!"invalid configuration in {path.text}"
  | noTransformers => "no transformers configured"
  | blankTransformerName position => s!"transformer #{position} has a blank name"

instance : ToString ConfigError := ⟨ConfigError.message⟩

namespace Config

/-- The name of the configuration file of a project. -/
def fileName : String := "classforge.toml"

/-- The configuration of an empty file. -/
def default : Config :=
  { skip := false
    includeTestClasses := true
    buildDirectory := ⟨"target/classes"⟩
    testBuildDirectory := ⟨"target/test-classes"⟩
    outputDirectory := none
    classpath := []
    transformers := [] }

/-! ## Reading -/

/-- The value of a key, or `absent` if the key is not there. -/
def field {α : Type} (entries : List (String × Toml.Value)) (key : String)
    (read : Toml.Value → Option α) (absent : α) : Option α :=
  match entries.lookup key with
  | none => some absent
  | some v => read v

/-- A path. -/
def path? (v : Toml.Value) : Option Path := v.text?.map Path.mk

/-- A list of paths. -/
def paths? (v : Toml.Value) : Option (List Path) := v.array?.bind fun vs => vs.mapM path?

/-- Texts under keys. -/
def settings? (v : Toml.Value) : Option Settings :=
  v.table?.bind fun entries =>
    (entries.mapM fun e : String × Toml.Value => e.2.text?.map (e.1, ·)).map Settings.ofList

/-- A transformer: a table with the keys `name` and `settings` and any others,
or an array of its name, its settings and anything else. -/
def unit? : Toml.Value → Option UnitConfig
  | .table entries => do
    let name ← (← entries.lookup "name").text?
    return { name, settings := ← field entries "settings" settings? .empty }
  | .array [name] => do return { name := ← name.text?, settings := .empty }
  | .array (name :: settings :: _) => do
    return { name := ← name.text?, settings := ← settings? settings }
  | _ => none

/-- A list of transformers. -/
def units? (v : Toml.Value) : Option (List UnitConfig) := v.array?.bind fun vs => vs.mapM unit?

/-- The keys of a configuration. -/
def keys : List String :=
  ["skip", "include_test_classes", "build_dir", "test_build_dir", "output_dir", "classpath",
    "transformers"]

/-- The configuration that a document says; no other keys are allowed. -/
def ofEntries? (entries : List (String × Toml.Value)) : Option Config := do
  if entries.any fun (key, _) => !keys.contains key then none
  return {
    skip := ← field entries "skip" (·.boolean?) default.skip
    includeTestClasses :=
      ← field entries "include_test_classes" (·.boolean?) default.includeTestClasses
    buildDirectory := ← field entries "build_dir" path? default.buildDirectory
    testBuildDirectory := ← field entries "test_build_dir" path? default.testBuildDirectory
    outputDirectory := ← field entries "output_dir" (fun v => (path? v).map some) none
    classpath := ← field entries "classpath" paths? []
    transformers := ← field entries "transformers" units? [] }

/-- The configuration that a text says. -/
def ofToml? (text : String) : Option Config := (Toml.parse? text).bind ofEntries?

/-- The configuration with its relative directories seen from `base`. -/
def resolve (c : Config) (base : Path) : Config :=
  { c with
    buildDirectory := base.join c.buildDirectory
    testBuildDirectory := base.join c.testBuildDirectory
    outputDirectory := c.outputDirectory.map base.join
    classpath := c.classpath.map base.join }

/-- The configuration in a file, seen from the directory of the file. -/
def load (files : FileTree) (path : Path) : Except ConfigError Config :=
  match files.readText path with
  | .error e => .error (.io path e)
  | .ok text => match ofToml? text with
    | none => .error (.parse path)
    | some c => .ok (c.resolve (path.parent?.getD ⟨"."⟩))

/-- Refuses a configuration without transformers, or with one that has a blank
name. -/
def validate (c : Config) : Except ConfigError Unit :=
  if c.transformers = [] then .error .noTransformers
  else match c.transformers.findIdx? fun u => Text.trim u.name = "" with
    | none => .ok ()
    | some i => .error (.blankTransformerName (i + 1))

end Config

end ClassStamp.Build
