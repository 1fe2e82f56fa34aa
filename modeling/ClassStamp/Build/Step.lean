import ClassStamp.Build.Config
import ClassStamp.Classpath.Ambient
import ClassStamp.Run.Execution

/-!
# Build steps

A build step runs the transformers of a project over its main classes and then
over its test classes. While it runs, the classpath of the project is part of
the ambient classpath. A directory of classes that is not there is left out.

* `Config.phases` are the runs of a project;
* `step` carries them out.
-/

namespace ClassStamp.Build

/-- The classes that a run of a build step is about. -/
inductive Phase
  /-- The main classes. -/
  | main
  /-- The test classes. -/
  | test
  deriving DecidableEq

/-- The word for the phase. -/
def Phase.text : Phase → String
  | main => "main"
  | test => "test"

/-- What a build step does to the classes. -/
inductive Task
  /-- It transforms them. -/
  | transform
  /-- It takes the stamps away again. -/
  | unstamp
  deriving DecidableEq

/-- The run that does the task. -/
def Task.run : Task → Run.Config → List Transformer → List Path → FileTree → Run.Result
  | transform => Run.execute
  | unstamp => Run.removeStamps

/-- Why a build step stops. -/
inductive BuildError
  /-- The configuration cannot be used. -/
  | config (reason : ConfigError)
  /-- A transformer cannot be made. -/
  | registry (reason : RegistryError)
  /-- A run fails. -/
  | run (phase : Phase) (reason : Run.RunError)
  deriving DecidableEq

/-- The text shown for the error. -/
def BuildError.message : BuildError → String
  | config reason => reason.message
  | registry reason => reason.message
  | run phase reason => s!"{phase.text} classes: {reason.message}"

instance : ToString BuildError := ⟨BuildError.message⟩

/-- The runs of a project in order. Only main classes may go elsewhere, and
test classes see the main classes. -/
def Config.phases (c : Config) : List (Phase × Run.Config) :=
  let main := { Run.Config.new c.buildDirectory with output := c.outputDirectory }
  let test := { Run.Config.new c.testBuildDirectory with classpath := [c.buildDirectory] }
  (Phase.main, main) :: if c.includeTestClasses then [(Phase.test, test)] else []

/-- A part of a build step. What it did to the files before it failed
stays. -/
abbrev Action := EStateM BuildError FileTree

/-- Does the task to the classes of one phase, if their directory is there. -/
def runPhase (task : Task) (transformers : List Transformer) (ambient : List Path)
    (phase : Phase) (config : Run.Config) : Action Run.Report := fun files =>
  match config.inputDirectory? with
  | none => .ok .empty files
  | some input =>
    if files.isDirectory input then
      let result := task.run config transformers ambient files
      match result.report with
      | .ok report => .ok report result.files
      | .error e => .error (.run phase e) result.files
    else .ok .empty files

/-- Does the task to the classes of some phases, one after the other. -/
def runPhases (task : Task) (transformers : List Transformer) (ambient : List Path) :
    List (Phase × Run.Config) → Action Run.Report
  | [] => pure .empty
  | (phase, config) :: rest => do
    let report ← runPhase task transformers ambient phase config
    return report.merge (← runPhases task transformers ambient rest)

/-- Makes the transformers of a project. -/
def prepare (config : Config) (registry : Registry) : Except BuildError (List Transformer) := do
  config.validate.mapError .config
  (registry.instantiateAll config.transformers).mapError .registry

/-- What a build step leaves behind. -/
structure Result where
  /-- The report, or why the step stopped. -/
  report : Except BuildError Run.Report
  /-- The files. -/
  files : FileTree
  /-- The ambient classpath. -/
  ambient : Ambient

/-- Does the task to a project. -/
def step (task : Task) (config : Config) (registry : Registry) (ambient : Ambient)
    (files : FileTree) : Result :=
  if config.skip then { report := .ok .empty, files, ambient }
  else match prepare config registry with
    | .error e => { report := .error e, files, ambient }
    | .ok transformers =>
      let (guard, extended) := ambient.extend config.classpath
      match runPhases task transformers extended.paths config.phases files with
      | .error e files => { report := .error e, files, ambient := extended.release guard }
      | .ok report files => { report := .ok report, files, ambient := extended.release guard }

end ClassStamp.Build
