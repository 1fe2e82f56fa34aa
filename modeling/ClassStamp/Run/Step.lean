import ClassStamp.Classpath.Context
import ClassStamp.Run.Report
import ClassStamp.Transformer

/-!
# Steps of a run

What happens to one class in one pass. A step takes the class out of the
resolution context, decides, edits, stamps and writes it, and brings it back;
whatever fails, the class goes back as it was before the step, and the report
gets one outcome for it.

* `State.transform` is the step of a transformer, `State.writeNested` its part
  for the classes inside the transformed one;
* `State.unstamp` is the step that removes a stamp.
-/

namespace ClassStamp.Run

/-- A moment at which a transformer was called. -/
inductive CallKind
  /-- It was asked whether it wants to act. -/
  | checked
  /-- It was told to act. -/
  | applied
  deriving DecidableEq

/-- A call of a transformer. -/
structure Call where
  /-- The place of the transformer among those of the run. -/
  position : Nat
  /-- The identity of the transformer. -/
  transformer : String
  /-- What it was called for. -/
  kind : CallKind
  /-- The class. -/
  name : ClassName
  deriving DecidableEq

/-- What happens in a run, one thing after the other. -/
inductive Event
  /-- A transformer was called. -/
  | called (call : Call)
  /-- An outcome was added to the report. -/
  | noted (outcome : Outcome)
  deriving DecidableEq

/-- The call that the event is, if it is one. -/
def Event.call? : Event → Option Call
  | called call => some call
  | noted _ => none

/-- The outcome that the event adds to the report, if it adds one. -/
def Event.outcome? : Event → Option Outcome
  | called _ => none
  | noted outcome => some outcome

/-- The work of one transformer in a run. -/
structure Pass where
  /-- The place of the transformer among those of the run. -/
  position : Nat
  /-- The transformer. -/
  transformer : Transformer
  /-- Where classes are written. -/
  output : Output

/-- The stamp of the transformer. -/
def Pass.stamp (p : Pass) : Stamp := p.transformer.stamp

/-- What a run has at hand between two steps. -/
structure State where
  /-- The files. -/
  files : FileTree
  /-- The resolution context. -/
  context : Classpath.Context
  /-- The report so far. -/
  report : Report
  /-- What happened so far. -/
  log : List Event

namespace State

/-! ## Records -/

/-- Adds an outcome to the report. -/
def record (s : State) (o : Outcome) : State :=
  { s with report := s.report.add o, log := s.log ++ [.noted o] }

/-- Notes what became of a class. -/
def note (s : State) (p : Pass) (name : ClassName) (state : OutcomeState) : State :=
  s.record { transformer := p.transformer.identity, name, state, message := none, files := [] }

/-- Notes that something went wrong with a class. -/
def fail (s : State) (p : Pass) (name : ClassName) (kind : FailureKind) (message : String) :
    State :=
  s.record { transformer := p.transformer.identity, name, state := .failed kind,
             message := some message, files := [] }

/-- Notes that a class was written. -/
def noteFile (s : State) (p : Pass) (name : ClassName) (state : OutcomeState)
    (file : WrittenFile) : State :=
  s.record { transformer := p.transformer.identity, name, state, message := none,
             files := [file] }

/-- Notes a call of the transformer. -/
def call (s : State) (p : Pass) (kind : CallKind) (name : ClassName) : State :=
  let call := { position := p.position, transformer := p.transformer.identity, kind, name }
  { s with log := s.log ++ [.called call] }

/-- Brings a class back. -/
def giveBack (s : State) (a : Artifact) : State := { s with context := s.context.restore a }

/-! ## Taking out -/

/-- The kind of failure that an error of resolution is. -/
def failureKind : ResolutionError → FailureKind
  | .notFound _ _ => .unresolved
  | .malformed _ _ _ => .malformed
  | .io _ _ | .invalidEntry _ _ => .io

/-- Takes a class out; if that fails, notes why. -/
def takeOut (s : State) (p : Pass) (name : ClassName) : Option Artifact × State :=
  match Classpath.Context.checkout s.files name s.context with
  | .ok a context => (some a, { s with context })
  | .error e context => (none, { s with context }.fail p name (failureKind e) e.message)

/-! ## Nested classes -/

/-- Whether the step has to write a class inside the transformed one: the
transformer opened it, and it does not carry the stamp. -/
def isPending (p : Pass) (nested : Artifact) : Bool :=
  nested.isModified && !p.stamp.isPresent nested

/-- Stamps and writes a class inside the transformed one, and tells whether
that went well. -/
def writeOne (s : State) (p : Pass) (nested : Artifact) : Bool × Artifact × State :=
  match p.stamp.apply nested.defrost with
  | .error e a => (false, a, s.fail p nested.name .stamp e.message)
  | .ok () a => match p.output.write (a, s.files) with
    | .error e (a, files) => (false, a, { s with files }.fail p nested.name .write e.message)
    | .ok file (a, files) =>
      let s := { s with
        files, report := { s.report with nestedWritten := s.report.nestedWritten + 1 } }
      (true, a, s.noteFile p nested.name .written file)

/-- Stamps and writes those of some classes that are pending. Gives the
classes as they are then, and the names of those that failed. -/
def writePending (p : Pass) : List Artifact → State → List Artifact × List ClassName × State
  | [], s => ([], [], s)
  | nested :: rest, s =>
    if isPending p nested then
      let (done, a, s) := s.writeOne p nested
      let (as, failed, s) := writePending p rest s
      (a :: as, if done then failed else nested.name :: failed, s)
    else
      let (as, failed, s) := writePending p rest s
      (nested :: as, failed, s)

/-- Puts those of the nested classes that failed back to what they were; one
that was not there before is dropped. -/
def rollBack (pristine : List Artifact) (failed : List ClassName) (nested : List Artifact) :
    List Artifact :=
  nested.filterMap fun a =>
    if failed.contains a.name then pristine.find? (·.name == a.name) else some a

/-- Takes in some classes one after the other, except those that are
refused. -/
def attachAll (a : Artifact) (nested : List Artifact) : Artifact :=
  nested.foldl (fun a n => match Artifact.attachNested n a with
    | .ok () a | .error _ a => a) a

/-- Stamps and writes the classes inside a transformed one that the
transformer opened. -/
def writeNested (s : State) (p : Pass) (pristine a : Artifact) : Artifact × State :=
  let (nested, failed, s) := writePending p a.nested s
  if failed.isEmpty then ({ a with nested }, s)
  else (attachAll a.withoutNested (rollBack pristine.nested failed nested), s)

/-! ## Transforming -/

/-- A class as a transformer gets it: nothing is frozen, and none of the
classes inside it counts as opened. -/
def prepare (a : Artifact) : Artifact :=
  { a.defrost with nested := a.nested.map fun n => n.defrost.clearModified }

/-- Transforms, stamps and writes a class that was taken out and that the
transformer wants to act on. -/
def apply (s : State) (p : Pass) (name : ClassName) (a : Artifact) : State :=
  let pristine := prepare a
  let s := s.call p .applied pristine.name
  match p.transformer.apply pristine with
  | .error e _ => (s.giveBack pristine).fail p name .transform e.message
  | .ok () a => match p.stamp.apply a with
    | .error e _ => (s.giveBack pristine).fail p name .stamp e.message
    | .ok () a => match p.output.write (a, s.files) with
      | .error e (_, files) =>
        ({ s with files }.giveBack pristine).fail p name .write e.message
      | .ok file (a, files) =>
        let s := { s with
          files, report := { s.report with transformed := s.report.transformed + 1 } }
        let (a, s) := (s.noteFile p name .written file).writeNested p pristine a
        s.giveBack a

/-- The step of a transformer for one class. -/
def transform (p : Pass) (name : ClassName) (s : State) : State :=
  match s.takeOut p name with
  | (none, s) => s
  | (some a, s) =>
    if p.stamp.isPresent a then (s.giveBack a).note p name .skippedStamped
    else
      let s := s.call p .checked a.name
      match p.transformer.shouldTransform a with
      | .error e => (s.giveBack a).fail p name .predicate e.message
      | .ok false => (s.giveBack a).note p name .skippedByPredicate
      | .ok true => s.apply p name a

/-! ## Removing stamps -/

/-- The step that removes the stamp of a transformer from one class. -/
def unstamp (p : Pass) (name : ClassName) (s : State) : State :=
  match s.takeOut p name with
  | (none, s) => s
  | (some a, s) =>
    if !p.stamp.isPresent a then (s.giveBack a).note p name .notStamped
    else
      let pristine := a.defrost
      match p.stamp.remove pristine with
      | .error e _ => (s.giveBack pristine).fail p name .stamp e.message
      | .ok _ a => match p.output.write (a, s.files) with
        | .error e (_, files) =>
          ({ s with files }.giveBack pristine).fail p name .write e.message
        | .ok file (a, files) =>
          let s := { s with
            files, report := { s.report with unstamped := s.report.unstamped + 1 } }
          (s.noteFile p name .unstamped file).giveBack a

end State

end ClassStamp.Run
