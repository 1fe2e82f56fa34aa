import ClassStamp.FileTree
import ClassStamp.ClassName

/-!
# Locating classes

A walk over all class files below a directory, depth first and in the order of
the names in each directory. A directory is looked at when the walk gets
there, so the walk sees what was done to the files before.

* `walk` visits what is below a directory while a state changes that holds the
  files;
* `locate` lists the names of the classes below a directory.
-/

namespace ClassStamp.Run

/-- Why a directory cannot be walked. -/
structure UnreadableRoot where
  /-- The directory. -/
  path : Path
  /-- The reason. -/
  reason : FileError
  deriving DecidableEq

/-- The text shown for the error. -/
def UnreadableRoot.message (e : UnreadableRoot) : String :=
  s!"cannot read input root {e.path.text}: {e.reason.message}"

instance : ToString UnreadableRoot := ⟨UnreadableRoot.message⟩

/-- Refuses what is not a directory. -/
def checkRoot (files : FileTree) (root : Path) : Except UnreadableRoot Unit :=
  match files.find root with
  | .error reason => .error ⟨root, reason⟩
  | .ok (_, .file _) => .error ⟨root, .other "not a directory"⟩
  | .ok (_, .directory _) => .ok ()

/-- Whether a file of that name is a class file: the name is more than the
suffix and ends in it. -/
def isClassFile (name : String) : Bool :=
  name != ClassName.fileSuffix && (ClassName.dropEnding? ClassName.fileSuffix name).isSome

/-- Visits what is below a directory, at most `depth` directories deep. A
visit gets the path of a file, with its name, or nothing for a directory that
cannot be read. -/
def walkBelow {σ : Type} (files : σ → FileTree) (visit : Option (Path × String) → σ → σ) :
    Nat → Path → σ → σ
  | 0, _, s => s
  | depth + 1, directory, s => match (files s).list directory with
    | .error _ => visit none s
    | .ok entries => entries.foldl (fun s (name, node) =>
        let path := directory.join ⟨name⟩
        if node.isDirectory then walkBelow files visit depth path s
        else visit (some (path, name)) s) s

/-- Visits the class files below `root`. A visit gets the name of the class,
or nothing for a file or directory that names none. No directory is deeper
than a path is long, so the walk is never cut short. -/
def walk {σ : Type} (files : σ → FileTree) (root : Path)
    (visit : Option ClassName → σ → σ) (s : σ) : σ :=
  let visitFile : Option (Path × String) → σ → σ
    | none => visit none
    | some (path, name) =>
      if isClassFile name then visit (ClassName.ofPathBelow? root path).toOption else id
  walkBelow files visitFile FileTree.maxPathLength root s

/-- The names of the classes below `root`, in the order of the walk, with
nothing for a file or directory that names none. -/
def locate (files : FileTree) (root : Path) : Except UnreadableRoot (List (Option ClassName)) := do
  checkRoot files root
  return (walk (fun _ => files) root (fun name names => name :: names) []).reverse

/-- The names of the classes below `root`, in the order of the walk. -/
def candidates (files : FileTree) (root : Path) : Except UnreadableRoot (List ClassName) :=
  (locate files root).map fun names => names.filterMap id

end ClassStamp.Run
