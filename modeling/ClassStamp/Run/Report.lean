import ClassStamp.Json
import ClassStamp.Output

/-!
# Run reports

What became of every class that a run looked at: one outcome for each
transformer and class, in the order of the run, and three counters.

* `Report.failures`, `count` and `outcomesFor` select outcomes;
* `Report.merge` puts a later report behind an earlier one;
* `Report.text` and `Report.json` show a report.
-/

namespace ClassStamp.Run

/-- What went wrong with a class. -/
inductive FailureKind
  | unresolved
  | malformed
  | io
  | predicate
  | transform
  | stamp
  | write
  deriving DecidableEq

/-- The word for the kind. -/
def FailureKind.text : FailureKind → String
  | unresolved => "unresolved"
  | malformed => "malformed"
  | io => "io"
  | predicate => "predicate"
  | transform => "transform"
  | stamp => "stamp"
  | write => "write"

/-- What became of a class. -/
inductive OutcomeState
  /-- The class carried the stamp of the transformer already. -/
  | skippedStamped
  /-- The transformer did not want to act. -/
  | skippedByPredicate
  /-- The class was transformed and written. -/
  | written
  /-- The stamp was removed and the class written. -/
  | unstamped
  /-- There was no stamp to remove. -/
  | notStamped
  /-- Something went wrong. -/
  | failed (kind : FailureKind)
  deriving DecidableEq

/-- The word for the state; the kind of a failure is not in it. -/
def OutcomeState.text : OutcomeState → String
  | skippedStamped => "skipped_stamped"
  | skippedByPredicate => "skipped_by_predicate"
  | written => "written"
  | unstamped => "unstamped"
  | notStamped => "not_stamped"
  | failed _ => "failed"

/-- The state as one word: the word for it, with that for the kind of a failure
behind a colon. -/
def OutcomeState.fullText : OutcomeState → String
  | failed kind => s!"failed:{kind.text}"
  | state => state.text

/-- What one transformer did to one class. -/
structure Outcome where
  /-- The identity of the transformer. -/
  transformer : String
  /-- The name of the class. -/
  name : ClassName
  /-- What became of the class. -/
  state : OutcomeState
  /-- What went wrong, in words. -/
  message : Option String
  /-- The files that were written. -/
  files : List WrittenFile
  deriving DecidableEq

/-- Whether something went wrong. -/
def Outcome.isFailure (o : Outcome) : Bool :=
  match o.state with
  | .failed _ => true
  | _ => false

/-- What a run did. -/
structure Report where
  /-- The number of classes transformed for themselves. -/
  transformed : Nat
  /-- The number of classes written because they are inside one. -/
  nestedWritten : Nat
  /-- The number of stamps removed. -/
  unstamped : Nat
  /-- What became of each class, in the order of the run. -/
  outcomes : List Outcome
  deriving DecidableEq

namespace Report

/-- The report of a run that did nothing. -/
def empty : Report := { transformed := 0, nestedWritten := 0, unstamped := 0, outcomes := [] }

/-- The report with an outcome behind the others. -/
def add (r : Report) (o : Outcome) : Report := { r with outcomes := r.outcomes ++ [o] }

/-- The outcomes where something went wrong. -/
def failures (r : Report) : List Outcome := r.outcomes.filter (·.isFailure)

/-- Whether nothing went wrong. -/
def isClean (r : Report) : Bool := r.failures.isEmpty

/-- The number of outcomes with the given state. -/
def count (r : Report) (state : OutcomeState) : Nat := r.outcomes.countP (·.state == state)

/-- The outcomes of a class. -/
def outcomesFor (r : Report) (n : ClassName) : List Outcome := r.outcomes.filter (·.name == n)

/-- The report of two runs, one after the other. -/
def merge (r later : Report) : Report :=
  { transformed := r.transformed + later.transformed
    nestedWritten := r.nestedWritten + later.nestedWritten
    unstamped := r.unstamped + later.unstamped
    outcomes := r.outcomes ++ later.outcomes }

/-- The line about a failure. -/
def failureLine (o : Outcome) : String :=
  match o.state with
  | .failed kind =>
    let message := o.message.getD ""
    s!"  {o.name.text} [{kind.text}] {o.transformer}: {message}\n"
  | _ => ""

/-- The report as text: a line of counts, then a line for each failure. -/
def text (r : Report) : String :=
  s!"{r.transformed} transformed, {r.nestedWritten} nested written, " ++
    s!"{r.unstamped} unstamped, {r.count .skippedStamped} skipped (stamped), " ++
    s!"{r.count .skippedByPredicate} skipped (predicate), {r.failures.length} failed\n" ++
    String.join (r.failures.map failureLine)

/-- A file as a JSON object. -/
def fileJson (f : WrittenFile) : Json :=
  .object [("class", .string f.name.text), ("path", .string f.path.text),
    ("hash", .string f.hash.text)]

/-- An outcome as a JSON object; what it does not have is left out. -/
def outcomeJson (o : Outcome) : Json :=
  let kind := match o.state with
    | .failed kind => [("kind", Json.string kind.text)]
    | _ => []
  let message := match o.message with
    | some message => [("message", Json.string message)]
    | none => []
  let files := match o.files with
    | [] => []
    | files => [("files", Json.array (files.map fileJson))]
  .object ([("unit", .string o.transformer), ("class", .string o.name.text),
    ("state", .string o.state.text)] ++ kind ++ message ++ files)

/-- The report as a JSON object. -/
def json (r : Report) : Json :=
  .object [("transformed", .number r.transformed), ("nested_written", .number r.nestedWritten),
    ("unstamped", .number r.unstamped), ("outcomes", .array (r.outcomes.map outcomeJson))]

end Report

end ClassStamp.Run
