import ClassStamp.Build.Step
import ClassStamp.CommandLine.Request

/-!
# What a command does

The text that a command shows, its exit code and the files that it leaves. An
error is shown with the errors that led to it.

* `perform` does what the arguments ask for.
-/

namespace ClassStamp.CommandLine

/-! ## Causes -/

/-- The texts of the errors that led to this one, nearest first. -/
def causesOfResolution : ResolutionError → List String
  | .malformed _ _ reason => [reason.message]
  | .io _ reason => [reason.message]
  | .notFound _ _ | .invalidEntry _ _ => []

/-- The texts of the errors that led to this one, nearest first. -/
def causesOfRun : Run.RunError → List String
  | .unreadableRoot e => [e.reason.message]
  | .context e => e.message :: causesOfResolution e
  | .output _ reason => [reason.message]

/-- The texts of the errors that led to this one, nearest first. -/
def causesOfConfig : Build.ConfigError → List String
  | .io _ reason => [reason.message]
  | .parse _ | .noTransformers | .blankTransformerName _ => []

/-- The texts of the errors that led to this one, nearest first. -/
def causesOfRegistry : RegistryError → List String
  | .configure _ reason => reason.message :: reason.source?.toList
  | .blankName | .unknownUnit _ | .duplicate _ => []

/-- The texts of the errors that led to this one, nearest first. -/
def causesOfBuild : Build.BuildError → List String
  | .config e => causesOfConfig e
  | .registry e => causesOfRegistry e
  | .run _ e => e.message :: causesOfRun e

/-- The line that shows an error: what could not be done, the error, and those
that led to it. -/
def errorLine (context message : String) (causes : List String) : String :=
  "error: " ++ ": ".intercalate (context :: message :: causes)

/-! ## Outcomes -/

/-- What a command leaves behind. -/
structure Outcome where
  /-- The exit code: zero if all went well, one if something went wrong with a
  class, two if the command could not be carried out. -/
  exitCode : Nat
  /-- What the command shows. -/
  output : String
  /-- The error that it shows. -/
  error : Option String
  /-- The files. -/
  files : FileTree

/-- The version of the program. -/
def versionText : String := "classforge 0.1.0\n"

/-- The outcome of a command that could not be carried out. -/
def Outcome.failed (files : FileTree) (line : String) : Outcome :=
  { exitCode := 2, output := "", error := some line, files }

/-- The outcome of arguments that make no request. -/
def Outcome.stopped (files : FileTree) : Stop → Outcome
  | .misuse => { exitCode := 2, output := "", error := none, files }
  | .help => { exitCode := 0, output := "", error := none, files }
  | .version => { exitCode := 0, output := versionText, error := none, files }

/-- The outcome of a run with a report. -/
def Outcome.reported (files : FileTree) (json : Bool) (report : Run.Report) : Outcome :=
  let text := if json then report.json.pretty else report.text
  let shown := String.ofList (Text.trimEnd Text.isBlank text.toList)
  { exitCode := if report.isClean then 0 else 1, output := shown ++ "\n", error := none, files }

/-! ## Commands -/

/-- The configuration with what the options put in its place. -/
def Options.override (o : Options) (c : Build.Config) : Build.Config :=
  { c with
    buildDirectory := o.buildDirectory.getD c.buildDirectory
    outputDirectory := o.outputDirectory.or c.outputDirectory
    includeTestClasses := c.includeTestClasses && !o.skipTests }

/-- Does a task to the classes of a project. -/
def change (task : Build.Task) (name : String) (configuration : Path) (options : Options)
    (ambient : Ambient) (files : FileTree) : Outcome :=
  match Build.Config.load files configuration with
  | .error e =>
    .failed files (errorLine s!"cannot load configuration {configuration.text}" e.message
      (causesOfConfig e))
  | .ok config =>
    let result := Build.step task (options.override config) .builtin ambient files
    match result.report with
    | .error e =>
      .failed result.files (errorLine s!"{name} failed" e.message (causesOfBuild e))
    | .ok report => .reported result.files options.json report

/-- Lists the classes below a directory. -/
def list (directory : Path) (files : FileTree) : Outcome :=
  match Run.candidates files directory with
  | .error e =>
    .failed files (errorLine s!"cannot list {directory.text}" e.message [e.reason.message])
  | .ok names =>
    { exitCode := 0, output := String.join (names.map (·.text ++ "\n")), error := none, files }

/-- Does what the arguments ask for. The ambient classpath is that of the
environment variable. -/
def perform (arguments : List String) (classpath : Option String) (files : FileTree) :
    Outcome :=
  match Request.parse arguments with
  | .error reason => .stopped files reason
  | .ok ⟨configuration, command⟩ => match command with
    | .run options => change .transform "run" configuration options (.ofVariable classpath) files
    | .unstamp options =>
      change .unstamp "unstamp" configuration options (.ofVariable classpath) files
    | .list directory => list directory files

end ClassStamp.CommandLine
