import ClassStamp.Transformer

/-!
# The recording transformer

A transformer for trying runs out. It adds a field to the classes that it is
told to act on, and can be told to leave classes alone, to fail, and to edit
classes inside the transformed one.

* `Recording.transformer` is the rule.
-/

namespace ClassStamp

/-- The set-up of the transformer. -/
structure Recording where
  /-- The identity of the transformer. -/
  identity : String
  /-- The field to add. -/
  field : String
  /-- What the names of the classes to act on begin with. -/
  only : Option String
  /-- Whether to leave classes inside others alone. -/
  skipNested : Bool
  /-- The class to fail on. -/
  failOn : Option ClassName
  /-- The last part of the names of the classes to edit inside a transformed
  one. -/
  touchNested : Option String

namespace Recording

/-- The field that is added unless another one is set. -/
def defaultField : String := "__recorded"

/-- The identity unless another one is set. -/
def defaultIdentity : String := "recording-unit"

/-- The transformer with the given identity that acts on every class. -/
def new (identity : String) : Recording :=
  { identity, field := defaultField, only := none, skipNested := false, failOn := none,
    touchNested := none }

/-- Adds the field to an artifact. -/
def addField (r : Recording) : EStateM TransformError Artifact Unit := fun a =>
  let spec := FieldSpec.booleanConstant r.field (.publicFlag ||| .staticFlag ||| .finalFlag) true
  match Artifact.edit (ClassFile.addField spec) a with
  | .ok () a => .ok () a
  | .error (.classFile e) a => .error (.cannotApply e.message none) a
  | .error e a => .error (.ofArtifact e) a

/-- Whether to edit a class inside a transformed one: its name ends as asked
for, and it does not declare the field. -/
def wantsNested (r : Recording) (simpleName : String) (nested : Artifact) : Bool :=
  (ClassName.nestedSeparator :: simpleName.toList).isSuffixOf nested.name.chars &&
    (nested.classFile.declaredField? r.field).isNone

/-- Adds the field to those of some classes that ask for it. -/
def addToNested (r : Recording) (simpleName : String) :
    List Artifact → EStateM.Result TransformError (List Artifact) Unit
  | [] => .ok () []
  | a :: rest =>
    let edited := if r.wantsNested simpleName a then r.addField a else .ok () a
    match edited with
    | .error e a => .error e (a :: rest)
    | .ok () a => match addToNested r simpleName rest with
      | .error e rest => .error e (a :: rest)
      | .ok () rest => .ok () (a :: rest)

/-- Edits the classes inside a transformed one. -/
def editNested (r : Recording) : EStateM TransformError Artifact Unit := fun a =>
  match r.touchNested with
  | none => .ok () a
  | some simpleName => match r.addToNested simpleName a.nested with
    | .ok () nested => .ok () { a with nested }
    | .error e nested => .error e { a with nested }

/-- Whether to act on the class of the given name. -/
def wants (r : Recording) (n : ClassName) : Bool :=
  !(r.skipNested && n.isNested) &&
    match r.only with
    | none => true
    | some start => start.toList.isPrefixOf n.chars

/-- The rule. -/
def transformer (r : Recording) : Transformer where
  identity := r.identity
  shouldTransform a := .ok (r.wants a.name)
  apply := do
    let name := (← get).name
    if r.failOn = some name then throw (.cannotApply s!"refusing {name.text}" none)
    r.addField
    r.editNested

end Recording

end ClassStamp
