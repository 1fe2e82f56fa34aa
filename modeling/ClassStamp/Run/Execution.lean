import ClassStamp.Run.Config
import ClassStamp.Run.Locator
import ClassStamp.Run.Step

/-!
# Runs

A run passes once over the classes of the input for each transformer, in
order. What goes wrong with one class is in the report and the run goes on;
only a run that cannot be set up fails.

* `execute` transforms, `removeStamps` takes the stamps away again.
-/

namespace ClassStamp.Run

/-- Why a run fails. -/
inductive RunError
  /-- The input cannot be walked. -/
  | unreadableRoot (root : UnreadableRoot)
  /-- An entry of the classpath cannot be used. -/
  | context (reason : ResolutionError)
  /-- The output directory cannot be made. -/
  | output (path : Path) (reason : FileError)
  deriving DecidableEq

/-- The text shown for the error. -/
def RunError.message : RunError → String
  | unreadableRoot root => root.message
  | context reason => s!"cannot build resolution context: {reason.message}"
  | output path reason => s!"cannot prepare output directory {path.text}: {reason.message}"

instance : ToString RunError := ⟨RunError.message⟩

/-- What a run starts with. -/
structure Setup where
  /-- The directory of the classes. -/
  input : Path
  /-- The resolution context. -/
  context : Classpath.Context
  /-- Where classes are written. -/
  output : Output

/-- What a run leaves behind. -/
structure Result where
  /-- The report, or why the run failed. -/
  report : Except RunError Report
  /-- The files. -/
  files : FileTree
  /-- What happened. -/
  log : List Event

/-- The calls of transformers. -/
def Result.calls (r : Result) : List Call := r.log.filterMap Event.call?

/-- The classes that the transformer at a position was called for. -/
def Result.calledFor (r : Result) (position : Nat) (kind : CallKind) : List ClassName :=
  (r.calls.filter fun c => c.position == position && c.kind == kind).map (·.name)

/-- Makes the output directory, unless it is the input. -/
def prepareOutput (input output : Path) : EStateM RunError FileTree Unit := fun files =>
  if output.sameAs input then .ok () files
  else match FileTree.createDirectories output files with
    | .error e files => .error (.output output e) files
    | .ok () files => .ok () files

/-- Sets a run up. A run without transformers or without input has nothing to
do. -/
def setUp (config : Config) (transformers : List Transformer) (ambient : List Path) :
    EStateM RunError FileTree (Option Setup) := fun files =>
  match transformers, config.inputDirectory? with
  | [], _ | _, none => .ok none files
  | _, some input => match checkRoot files input with
    | .error e => .error (.unreadableRoot e) files
    | .ok () => match Classpath.Context.build files (config.entries input ambient) with
      | .error e => .error (.context e) files
      | .ok context =>
        let output := config.outputDirectory?.getD input
        match prepareOutput input output files with
        | .error e files => .error e files
        | .ok () files => .ok (some { input, context, output := ⟨output⟩ }) files

/-- Walks over the input once for each transformer and takes a step for each
class. -/
def passOver (step : Pass → ClassName → State → State) (input : Path) :
    List Pass → EStateM RunError State Unit
  | [] => pure ()
  | p :: rest => fun s => match checkRoot s.files input with
    | .error e => .error (.unreadableRoot e) s
    | .ok () =>
      let visit : Option ClassName → State → State
        | none => id
        | some name => step p name
      passOver step input rest (walk (·.files) input visit s)

/-- The work of each transformer of a run. -/
def passes (transformers : List Transformer) (output : Output) : List Pass :=
  transformers.zipIdx.map fun (transformer, position) => { position, transformer, output }

/-- What a run has at hand when it begins. -/
def State.start (files : FileTree) (context : Classpath.Context) : State :=
  { files, context, report := .empty, log := [] }

/-- A run with the given step. -/
def run (step : Pass → ClassName → State → State) (config : Config)
    (transformers : List Transformer) (ambient : List Path) (files : FileTree) : Result :=
  match setUp config transformers ambient files with
  | .error e files => { report := .error e, files, log := [] }
  | .ok none files => { report := .ok .empty, files, log := [] }
  | .ok (some setup) files =>
    match passOver step setup.input (passes transformers setup.output)
      (.start files setup.context) with
    | .error e s => { report := .error e, files := s.files, log := s.log }
    | .ok () s => { report := .ok s.report, files := s.files, log := s.log }

/-- Lets every transformer act on every class of the input. -/
def execute : Config → List Transformer → List Path → FileTree → Result := run State.transform

/-- Removes the stamp of every transformer from every class of the input. -/
def removeStamps : Config → List Transformer → List Path → FileTree → Result := run State.unstamp

end ClassStamp.Run
