import ClassStamp.Bytes
import ClassStamp.Path

/-!
# File trees

The files and directories that a run reads and writes, as a value. A path is
followed name by name, as operating systems do, and a path that cannot be
followed fails with the reason an operating system gives. Where it leads is a
place, the names on the way from the root without any detour.

* `FileTree.find` follows a path, `read`, `isDirectory` and `list` look at
  what is there;
* `FileTree.createDirectory`, `createDirectories`, `write` and `remove` change
  the tree;
* `FileTree.node?` is what is at a place, `FileTree.nodes` all of it.
-/

namespace ClassStamp

/-- Why a file or directory cannot be used. -/
inductive FileError
  /-- Nothing is there. -/
  | notFound
  /-- Something is there already. -/
  | alreadyExists
  /-- The path goes through a file or ends in one. -/
  | notADirectory
  /-- The path ends in a directory. -/
  | isADirectory
  /-- The path or one of its names is too long. -/
  | nameTooLong
  /-- The path holds the character zero. -/
  | nulCharacter
  /-- The bytes of the file are no UTF-8 text. -/
  | invalidUtf8
  /-- Any other reason. -/
  | other (reason : String)
  deriving DecidableEq

/-- The text shown for the error. -/
def FileError.message : FileError → String
  | notFound => "No such file or directory (os error 2)"
  | alreadyExists => "File exists (os error 17)"
  | notADirectory => "Not a directory (os error 20)"
  | isADirectory => "Is a directory (os error 21)"
  | nameTooLong => "File name too long (os error 36)"
  | nulCharacter => "file name contained an unexpected NUL byte"
  | invalidUtf8 => "stream did not contain valid UTF-8"
  | other reason => reason

namespace FileTree

/-- The names on the way from the root to a file or directory, the last one
first. -/
abbrev Place := List String

/-- What is at a place. -/
inductive Node
  | directory (entries : List (String × Node))
  | file (content : Bytes)

/-- What a directory holds, in the order in which it was made. -/
abbrev Directory := List (String × Node)

/-- The number of bytes that a name may have. -/
def maxNameLength : Nat := 255

/-- The number of bytes that a path may have. -/
def maxPathLength : Nat := 4095

end FileTree

/-- Files and directories, and the directory that relative paths begin at. -/
structure FileTree where
  /-- The place of the directory that relative paths begin at. -/
  workingDirectory : FileTree.Place
  /-- What the root holds. -/
  root : FileTree.Directory

namespace FileTree

/-- The tree that has only the directory that some names lead to from the
root, and those above it. Relative paths begin there. -/
def empty (names : List String) : FileTree :=
  { workingDirectory := names.reverse
    root := names.foldr (fun name inside => [(name, .directory inside)]) [] }

/-! ## Nodes by place -/

/-- Whether the node is a directory. -/
def Node.isDirectory : Node → Bool
  | directory _ => true
  | file _ => false

/-- Whether two nodes are both directories, or files with the same bytes. -/
def Node.agrees : Node → Node → Bool
  | directory _, directory _ => true
  | file a, file b => a == b
  | _, _ => false

/-- The node that some names lead to. -/
def Node.below? : List String → Node → Option Node
  | [], node => some node
  | name :: rest, directory entries => match entries.lookup name with
    | none => none
    | some node => node.below? rest
  | _ :: _, file _ => none

/-- The node at a place; the root is always a directory. -/
def node? (t : FileTree) (place : Place) : Option Node :=
  Node.below? place.reverse (.directory t.root)

/-- The directory with what is under a name changed; something new comes
last. -/
def Directory.alter (name : String) (change : Option Node → Option Node) : Directory → Directory
  | [] => match change none with
    | none => []
    | some node => [(name, node)]
  | (other, node) :: rest =>
    if other = name then match change (some node) with
      | none => rest
      | some node => (other, node) :: rest
    else (other, node) :: alter name change rest

/-- The directory with what some names lead to changed. Nothing changes if
they lead through anything but directories. -/
def Directory.alterBelow (change : Option Node → Option Node) :
    List String → Directory → Directory
  | [], directory => directory
  | [name], directory => directory.alter name change
  | name :: rest, directory => directory.alter name fun
    | some (.directory inside) => some (.directory (alterBelow change rest inside))
    | node => node

/-- The tree with a node, or nothing, at a place, instead of what was there. -/
def set (t : FileTree) (place : Place) (node : Option Node) : FileTree :=
  { t with root := t.root.alterBelow (fun _ => node) place.reverse }

mutual

/-- The nodes below one that is at `place`, each with its place, last one
first, in front of `found`. -/
def Node.collect (place : Place) : Node → List (Place × Node) → List (Place × Node)
  | .directory entries, found => collectAll place entries found
  | .file _, found => found

/-- The entries of a directory that is at `place` and the nodes below them, each
with its place, last one first, in front of `found`. -/
def collectAll (place : Place) :
    List (String × Node) → List (Place × Node) → List (Place × Node)
  | [], found => found
  | (name, node) :: rest, found =>
    let here := name :: place
    collectAll place rest (node.collect here ((here, node) :: found))

end

/-- The nodes below one, with the ways that lead to them from there; a
directory comes before what it holds. -/
def Node.all (node : Node) : List (Place × Node) := (node.collect [] []).reverse

/-- The nodes of the tree with their places; a directory comes before what it
holds. -/
def nodes (t : FileTree) : List (Place × Node) := (Node.directory t.root).all

/-! ## Following paths -/

/-- The names of a path, with `.` and `..` among them. -/
def steps (p : Path) : List String := p.slashed.filter (· ≠ "")

/-- Whether the path asks for a directory by a slash at its end. -/
def endsInSlash (p : Path) : Bool := p.text.toList.getLast? == some '/'

/-- Refuses a path that no operating system follows. -/
def checkPath (p : Path) : Except FileError Unit :=
  if p.text.toList.contains '\x00' then .error .nulCharacter
  else if p.text = "" then .error .notFound
  else if maxPathLength < p.text.utf8ByteSize then .error .nameTooLong
  else .ok ()

/-- Where the path begins. -/
def start (t : FileTree) (p : Path) : Place := if p.isAbsolute then [] else t.workingDirectory

/-- Follows names from a node at a place, each of which has to be there. -/
def follow (t : FileTree) : List String → Place → Node → Except FileError (Place × Node)
  | [], place, node => .ok (place, node)
  | name :: rest, place, .directory entries =>
    if name = "." then t.follow rest place (.directory entries)
    else if name = ".." then match t.node? place.tail with
      | none => .error .notFound
      | some node => t.follow rest place.tail node
    else if maxNameLength < name.utf8ByteSize then .error .nameTooLong
    else match entries.lookup name with
      | none => .error .notFound
      | some node => t.follow rest (name :: place) node
  | _ :: _, _, .file _ => .error .notADirectory

/-- Follows names from where a path begins. -/
def followFrom (t : FileTree) (p : Path) (names : List String) :
    Except FileError (Place × Node) :=
  match t.node? (t.start p) with
  | none => .error .notFound
  | some node => t.follow names (t.start p) node

/-- The place of a path, and what is there. -/
def find (t : FileTree) (p : Path) : Except FileError (Place × Node) := do
  checkPath p
  let (place, node) ← t.followFrom p (steps p)
  if endsInSlash p && !node.isDirectory then .error .notADirectory else .ok (place, node)

/-! ## Looking -/

/-- The content of the file at a path. -/
def read (t : FileTree) (p : Path) : Except FileError Bytes := do
  match (← t.find p).2 with
  | .file content => .ok content
  | .directory _ => .error .isADirectory

/-- The text of the file at a path. -/
def readText (t : FileTree) (p : Path) : Except FileError String := do
  let content ← t.read p
  match String.fromUTF8? ⟨content.toArray⟩ with
  | some s => .ok s
  | none => .error .invalidUtf8

/-- Whether a directory is at the path. -/
def isDirectory (t : FileTree) (p : Path) : Bool :=
  match t.find p with
  | .ok (_, node) => node.isDirectory
  | .error _ => false

/-- What the directory at a path holds, in the order of the names. -/
def list (t : FileTree) (p : Path) : Except FileError (List (String × Node)) := do
  match (← t.find p).2 with
  | .directory entries => .ok (entries.mergeSort fun a b => !decide (b.1 < a.1))
  | .file _ => .error .notADirectory

/-! ## Changing -/

/-- A change of the tree. What a change did before it failed stays. -/
abbrev Edit := EStateM FileError FileTree

/-- The place that a path names for something new, and what is there already.
A path that ends in `.` or `..` names nothing new. -/
def newPlace (t : FileTree) (p : Path) : Except FileError (Option (Place × Option Node)) := do
  checkPath p
  match (steps p).getLast? with
  | none => .ok none
  | some name =>
    match ← t.followFrom p (steps p).dropLast with
    | (_, .file _) => .error .notADirectory
    | (above, .directory entries) =>
      if name = "." ∨ name = ".." then .ok none
      else if maxNameLength < name.utf8ByteSize then .error .nameTooLong
      else .ok (some (name :: above, entries.lookup name))

/-- Makes a directory in one that is there. -/
def createDirectory (p : Path) : Edit Unit := fun t =>
  match t.newPlace p with
  | .error e => .error e t
  | .ok (some (place, none)) => .ok () (t.set place (some (.directory [])))
  | .ok _ => .error .alreadyExists t

/-- Makes a directory and those above it that are missing, `levels` directories
at most. The empty path is always there. -/
def createAll : Nat → Path → Edit Unit
  | 0, _ => throw (.other "failed to create whole tree")
  | levels + 1, p => fun t =>
    if p.text = "" then .ok () t
    else
      let settle (result : EStateM.Result FileError FileTree Unit) :=
        match result with
        | .ok () t => .ok () t
        | .error e t => if t.isDirectory p then .ok () t else .error e t
      match createDirectory p t with
      | .error .notFound t => match p.parent? with
        | none => .error (.other "failed to create whole tree") t
        | some above => match createAll levels above t with
          | .ok () t => settle (createDirectory p t)
          | .error e t => .error e t
      | result => settle result

/-- Makes a directory and all that are missing above it, which are no more
than the path has characters. -/
def createDirectories (p : Path) : Edit Unit := createAll (p.text.length + 1) p

/-- Writes a file in a directory that is there, in place of a file of that
name. -/
def write (p : Path) (content : Bytes) : Edit Unit := fun t =>
  match t.newPlace p with
  | .error e => .error e t
  | .ok none => .error .isADirectory t
  | .ok (some (place, there)) =>
    if endsInSlash p || there.any Node.isDirectory then .error .isADirectory t
    else .ok () (t.set place (some (.file content)))

/-- Writes a file and first makes the directories above it, as far as that can
be done. -/
def writeBelow (p : Path) (content : Bytes) : Edit Unit := do
  tryCatch (createDirectories (p.parent?.getD ⟨""⟩)) fun _ => pure ()
  write p content

/-- Removes a file, or a directory with all that is below it. -/
def remove (p : Path) : Edit Unit := fun t =>
  match t.find p with
  | .error e => .error e t
  | .ok (place, _) => .ok () (t.set place none)

/-! ## Differences -/

/-- A difference between two trees at one place. -/
inductive Change
  | made (node : Node)
  | gone (wasDirectory : Bool)

/-- The places below the working directory at which a later tree differs, each
as a relative path, in the order of the paths. The path of a directory ends in
a slash. -/
def changesSince (before after : FileTree) : List (String × Change) :=
  let old := before.node? before.workingDirectory
  let new := after.node? after.workingDirectory
  let all (node : Option Node) : List (Place × Node) := (node.map Node.all).getD []
  let under (node : Option Node) (way : Place) : Option Node := node.bind (Node.below? way.reverse)
  let path (way : Place) (node : Node) : String :=
    "/".intercalate way.reverse ++ if node.isDirectory then "/" else ""
  let made := (all new).filterMap fun (way, node) =>
    if (under old way).any node.agrees then none else some (path way node, Change.made node)
  let gone := (all old).filterMap fun (way, node) =>
    if (under new way).any (·.isDirectory == node.isDirectory) then none
    else some (path way node, Change.gone node.isDirectory)
  (made ++ gone).mergeSort fun a b => !decide (b.1 < a.1)

/-- The nodes that a later tree has and an earlier one has not, with their
places; a directory comes before what it holds. -/
def madeSince (before after : FileTree) : List (Place × Node) :=
  after.nodes.filter fun (place, node) => !(before.node? place).any node.agrees

end FileTree

end ClassStamp
