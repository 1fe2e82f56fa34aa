import ClassStamp.Artifact
import ClassStamp.FileTree

/-!
# Classpath entries

The places that the bytes of a class may come from: a directory, a loader that
the caller brings, or the directories of the ambient classpath.

* `Loader`: what a caller brings, which may hold any classes and fail in any way;
* `Entry.load` asks an entry for a class: it may have none, and that differs
  from failing to look;
* `isBootstrap` tells the classes that the platform brings along.
-/

namespace ClassStamp

/-- Why a class could not be resolved. -/
inductive ResolutionError
  /-- No entry has the class `missing`, which `requested` needs. -/
  | notFound (missing requested : ClassName)
  /-- What was found is not the class. -/
  | malformed (name : ClassName) (origin : String) (reason : ArtifactError)
  /-- A file could not be read. -/
  | io (path : Path) (reason : FileError)
  /-- An entry cannot be used. -/
  | invalidEntry (path : Path) (problem : String)
  deriving DecidableEq

/-- The text shown for the error. -/
def ResolutionError.message : ResolutionError → String
  | notFound missing requested => s!"class {missing.text} not found (needed by {requested.text})"
  | malformed name origin reason =>
    s!"malformed class {name.text} from {origin}: {reason.message}"
  | io path reason => s!"io error reading {path.text}: {reason.message}"
  | invalidEntry path problem => s!"invalid classpath entry {path.text}: {problem}"

instance : ToString ResolutionError := ⟨ResolutionError.message⟩

namespace Classpath

/-- The packages of the platform. -/
def bootstrapPackages : List String := ["java", "javax", "jdk", "sun", "com.sun"]

/-- Whether the class comes with the platform. -/
def isBootstrap (n : ClassName) : Bool := n.isInAny bootstrapPackages

/-- The bytes of a class, with the place they come from. -/
structure ClassBytes where
  /-- The place, for messages. -/
  origin : String
  /-- The bytes. -/
  content : Bytes
  deriving DecidableEq

/-- A source of classes that the caller brings. Its answers may depend on the files. -/
structure Loader where
  /-- What the loader is called. -/
  description : String
  /-- The bytes of a class, or `none` if the loader does not hold it. -/
  load : FileTree → ClassName → Except ResolutionError (Option ClassBytes)

/-- A place that the bytes of a class may come from. -/
inductive Entry
  /-- A directory tree, which has to be there from the start. -/
  | directory (root : Path)
  /-- A loader that the caller brings. -/
  | loader (loader : Loader)
  /-- The directory trees of the ambient classpath. -/
  | system (roots : List Path)

/-- The file of a class below a directory, if there is one. -/
def loadFrom (files : FileTree) (root : Path) (n : ClassName) :
    Except ResolutionError (Option ClassBytes) :=
  let path := root.join n.relativePath
  match files.read path with
  | .ok content => .ok (some { origin := path.text, content })
  | .error .notFound => .ok none
  | .error reason => .error (.io path reason)

/-- Refuses what is not a directory. -/
def checkDirectory (files : FileTree) (root : Path) : Except ResolutionError Unit :=
  match files.find root with
  | .error reason => .error (.invalidEntry root reason.message)
  | .ok (_, .file _) => .error (.invalidEntry root "not a directory")
  | .ok (_, .directory _) => .ok ()

/-- The loader of the classes below a directory. -/
def Loader.directory (root : Path) : Loader where
  description := root.text
  load files n := loadFrom files root n

/-- The loader of classes in memory, of which the `failing` ones cannot be read.
Of a class that is given twice the last bytes count. -/
def Loader.inMemory (description : String) (classes : List (ClassName × Bytes))
    (failing : List ClassName) : Loader where
  description
  load _ n :=
    if failing.contains n then .error (.io ⟨"map/" ++ n.text⟩ (.other "loader failure"))
    else .ok ((classes.reverse.lookup n).map fun content =>
      { origin := "map:" ++ n.text, content })

/-- The first answer of some places in order; one that fails ends the
search. -/
def firstFound {α : Type} (load : α → Except ResolutionError (Option ClassBytes)) :
    List α → Except ResolutionError (Option ClassBytes)
  | [] => .ok none
  | place :: rest => match load place with
    | .ok none => firstFound load rest
    | result => result

namespace Entry

/-- Refuses an entry that cannot be used. -/
def check (files : FileTree) : Entry → Except ResolutionError Unit
  | directory root => checkDirectory files root
  | loader _ | system _ => .ok ()

/-- The bytes that an entry has for a class. -/
def load (files : FileTree) (n : ClassName) : Entry → Except ResolutionError (Option ClassBytes)
  | directory root => loadFrom files root n
  | loader l => l.load files n
  | system roots => firstFound (fun root => loadFrom files root n) roots

/-- The text shown for the entry. -/
def text : Entry → String
  | directory root => s!"dir:{root.text}"
  | loader l => s!"loader:{l.description}"
  | system roots => s!"system({roots.length} dirs)"

end Entry

end Classpath

end ClassStamp
