import ClassStamp.Path

/-!
# Class names

The dotted name of a compiled class, such as `com.acme.Outer$Inner`, with its
slashed form inside class files and its place in a directory tree.

* `ClassName.WellFormed` is what a name has to satisfy: no empty segment, and
  none of `/ \ ; [`. A value of `ClassName` satisfies it by construction.
* `ClassName.ofString?`, `ofInternal?` and `ofRelativePath?` read the three
  forms; `text`, `internal` and `relativePath` write them.
* `ClassName.isImmediateMemberOf` and `isInPackage` compare names by text.
-/

namespace ClassStamp

/-- Why a text or a path is not the name of a class. -/
inductive NameError
  | empty
  | emptySegment (name : String)
  | invalidCharacter (name : String) (character : Char)
  | notRelative (path : Path)
  | missingSuffix (path : Path)
  deriving DecidableEq

namespace NameError

/-- The text shown for the error. -/
def message : NameError → String
  | empty => "class name is empty"
  | emptySegment name => s!"class name '{name}' contains an empty segment"
  | invalidCharacter name character =>
    s!"class name '{name}' contains invalid character '{character}'"
  | notRelative path => s!"path {path.text} is not a relative class file path"
  | missingSuffix path => s!"path {path.text} does not end in .class"

instance : ToString NameError := ⟨message⟩

end NameError

namespace ClassName

/-- What the name of a class file ends in. -/
def fileSuffix : String := ".class"

/-- The character between the name of a class and that of a class inside it. -/
def nestedSeparator : Char := '$'

/-- The characters that no class name holds. -/
def isForbidden (c : Char) : Bool := c == '/' || c == '\\' || c == ';' || c == '['

/-- A class name has no empty segment and no forbidden character. -/
def WellFormed (cs : List Char) : Prop :=
  [] ∉ Text.split '.' cs ∧ ∀ c ∈ cs, isForbidden c = false

instance (cs : List Char) : Decidable (WellFormed cs) :=
  inferInstanceAs (Decidable (_ ∧ _))

end ClassName

/-- The dotted name of a class. -/
structure ClassName where
  /-- The name as text. -/
  text : String
  /-- The text is a class name. -/
  wellFormed : ClassName.WellFormed text.toList
  deriving DecidableEq

namespace ClassName

/-- The name as a list of characters. -/
def chars (n : ClassName) : List Char := n.text.toList

/-- Reads a dotted name. -/
def ofString? (s : String) : Except NameError ClassName :=
  if s = "" then .error .empty
  else if hsegments : [] ∈ Text.split '.' s.toList then .error (.emptySegment s)
  else match hforbidden : s.toList.find? isForbidden with
    | some c => .error (.invalidCharacter s c)
    | none => .ok ⟨s, hsegments, fun c hc => by
        simpa using List.find?_eq_none.1 hforbidden c hc⟩

/-- The name with a slash for each dot, as class files write it. -/
def internal (n : ClassName) : String :=
  String.ofList (n.chars.map fun c => if c = '.' then '/' else c)

/-- Reads a name written with slashes. -/
def ofInternal? (s : String) : Except NameError ClassName :=
  ofString? (String.ofList (s.toList.map fun c => if c = '/' then '.' else c))

/-- The texts between the dots. -/
def segments (n : ClassName) : List String := (Text.split '.' n.chars).map String.ofList

/-- The name of the class without its package. -/
def simpleName (n : ClassName) : String := n.segments.getLastD ""

/-- The package of the class; a class may be in none. -/
def package? (n : ClassName) : Option String :=
  match (Text.split '.' n.chars).dropLast with
  | [] => none
  | segments => some (String.ofList (Text.join '.' segments))

/-- Where the class file stands below a root: one directory per segment of
the package. -/
def relativePath (n : ClassName) : Path :=
  ⟨String.ofList (Text.join '/' (Text.split '.' n.chars)) ++ fileSuffix⟩

/-- The part of a text before an ending, if it has that ending. -/
def dropEnding? (ending s : String) : Option String :=
  if ending.toList.isSuffixOf s.toList then
    some (String.ofList (s.toList.take (s.toList.length - ending.toList.length)))
  else none

/-- The names among the steps of a path that has only names, apart from a
leading `.`. -/
def namesOfComponents? : List Path.Component → Option (List String)
  | [] => some []
  | .name s :: rest => (namesOfComponents? rest).map (s :: ·)
  | .here :: rest => namesOfComponents? rest
  | _ :: _ => none

/-- Reads the name of a class off the path of its file below a root. -/
def ofRelativePath? (p : Path) : Except NameError ClassName :=
  match namesOfComponents? p.components with
  | none => .error (.notRelative p)
  | some names => match names.getLast? with
    | none => .error (.notRelative p)
    | some last => match dropEnding? fileSuffix last with
      | none => .error (.missingSuffix p)
      | some stem =>
        ofString? (String.ofList
          (Text.join '.' ((names.dropLast ++ [stem]).map String.toList)))

/-- Reads the name of a class off the path of its file and the root that the
file is below. -/
def ofPathBelow? (root p : Path) : Except NameError ClassName :=
  match p.stripRoot? root with
  | none => .error (.notRelative p)
  | some rest => ofRelativePath? rest

/-- Whether the class is declared inside another one, by its name. -/
def isNested (n : ClassName) : Bool := n.simpleName.toList.contains nestedSeparator

/-- Whether the class is declared directly inside `outer`, by their names. -/
def isImmediateMemberOf (n outer : ClassName) : Bool :=
  outer.chars.isPrefixOf n.chars &&
    match n.chars.drop outer.chars.length with
    | c :: rest => c == nestedSeparator && !rest.isEmpty && !rest.contains nestedSeparator
    | [] => false

/-- Whether the class with the given name is in the package or in one below
it. Dots at the end of the package do not count, and every class is in the
empty package. -/
def covers (package : String) (name : List Char) : Bool :=
  let p := Text.trimEnd (· == '.') package.toList
  p.isEmpty || (p.isPrefixOf name && (name.drop p.length).head? == some '.')

/-- Whether the class is in the package or in one below it. -/
def isInPackage (n : ClassName) (package : String) : Bool := covers package n.chars

/-- Whether the class is in one of the packages or in one below them. -/
def isInAny (n : ClassName) (packages : List String) : Bool :=
  let name := n.chars
  packages.any fun package => covers package name

/-- The order of names, character by character. -/
def order (a b : ClassName) : Ordering := compare a.text b.text

end ClassName

end ClassStamp
