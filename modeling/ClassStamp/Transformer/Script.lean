import ClassStamp.Transformer

/-!
# Scripted transformers

Transformers put together from conditions and actions, for trying runs out
with transformers that do unusual things: edit or exchange the classes inside
a class, freeze classes, stamp them on their own, or fail half way.

* `Script.transformer` is the transformer of a script.
-/

namespace ClassStamp

namespace Script

/-- Whether the name of a class ends in a text. -/
def endsIn (ending : String) (a : Artifact) : Bool := ending.toList.isSuffixOf a.name.chars

/-- Whether a part of a script is about a class: all are, or those whose names
end as asked for. -/
def concerns (only : Option String) (a : Artifact) : Bool := only.all fun s => endsIn s a

/-- A question about a class. -/
inductive Condition
  /-- The same answer for all. -/
  | always (answer : Bool)
  /-- The question fails. -/
  | fails (reason : TransformError)
  /-- Whether the class declares a field. -/
  | hasField (name : String)
  /-- Whether the name of the class ends in a text. -/
  | named (ending : String)
  /-- Whether the class says that classes are inside it. -/
  | hasNested

/-- The answer for a class. -/
def Condition.ask (a : Artifact) : Condition → Except TransformError Bool
  | always answer => .ok answer
  | fails reason => .error reason
  | hasField name => .ok (a.classFile.declaredField? name).isSome
  | named ending => .ok (endsIn ending a)
  | hasNested => (a.classFile.nestedClassNames.mapError .ofClassFile).map (!·.isEmpty)

/-- Something done to a class. -/
inductive Action
  /-- Opens the class and edits its class file. -/
  | edit (change : ClassFile.Edit Unit)
  /-- Opens the class. -/
  | touch
  | freeze
  | defrost
  /-- Adds the stamp of the transformer with the identity. -/
  | stamp (identity : String)
  /-- Takes the stamp of the transformer with the identity away. -/
  | unstamp (identity : String)
  /-- Drops the classes held with the class. -/
  | detach
  /-- Takes in a class. -/
  | attach (nested : Artifact)
  | fail (reason : TransformError)

/-- Runs a part of a transformation that has errors of its own. -/
def adapt {ε α : Type} (wrap : ε → TransformError) (part : EStateM ε Artifact α) :
    EStateM TransformError Artifact Unit := fun a =>
  match part a with
  | .ok _ a => .ok () a
  | .error e a => .error (wrap e) a

/-- Edits the class file of a class that was opened. -/
def change (edit : ClassFile.Edit Unit) : EStateM ClassFileError Artifact Unit := fun a =>
  match edit a.classFile with
  | .ok () classFile => .ok () { a with classFile }
  | .error e classFile => .error e { a with classFile }

/-- Does the action. -/
def Action.apply : Action → EStateM TransformError Artifact Unit
  | edit e => do
    adapt .ofArtifact Artifact.beginEdit
    adapt .ofClassFile (change e)
  | touch => adapt .ofArtifact Artifact.beginEdit
  | freeze => adapt .ofArtifact Artifact.freeze
  | defrost => modify Artifact.defrost
  | stamp identity => adapt .ofStamp (Stamp.forIdentity identity).apply
  | unstamp identity => adapt .ofStamp (Stamp.forIdentity identity).remove
  | detach => modify Artifact.withoutNested
  | attach nested => adapt .ofArtifact (Artifact.attachNested nested)
  | fail reason => throw reason

/-- A step of a script. -/
structure Step where
  /-- What the names of the processed classes end in. -/
  only : Option String
  /-- The way from the processed class to the one that the action is done
  to. -/
  place : List Nat
  /-- The action. -/
  action : Action

/-- Takes the step, if it is about the class. -/
def Step.take (s : Step) : EStateM TransformError Artifact Unit := do
  if concerns s.only (← get) then
    let _ ← Artifact.within s.place s.action.apply

end Script

/-- A transformer as a value. -/
structure Script where
  /-- The identity of the transformer. -/
  identity : String
  /-- What the names of the classes end in that the condition is asked for;
  the transformer acts on all others. -/
  only : Option String
  /-- Whether the transformer wants to act. -/
  condition : Script.Condition
  /-- What it does. -/
  steps : List Script.Step

/-- The rule. -/
def Script.transformer (s : Script) : Transformer where
  identity := s.identity
  shouldTransform a := if concerns s.only a then s.condition.ask a else .ok true
  apply := s.steps.forM Step.take

end ClassStamp
