import ClassStamp.Artifact
import ClassStamp.FileTree

/-!
# Output directories

Where the transformed classes go: each to the place that its name gives below
one root. A class that was written is frozen, so that writing it again writes
the same bytes.

* `Output.pathFor` is that place, `Output.write` writes a class there.
-/

namespace ClassStamp

/-- A directory that classes are written below. -/
structure Output where
  /-- The directory. -/
  root : Path
  deriving DecidableEq

/-- A class file that was written. -/
structure WrittenFile where
  /-- The name of the class. -/
  name : ClassName
  /-- The path of the file. -/
  path : Path
  /-- The digest of its bytes. -/
  hash : ContentHash
  deriving DecidableEq

/-- Why a class could not be written. -/
inductive WriteError
  /-- The class has no bytes. -/
  | encode (name : ClassName) (reason : ArtifactError)
  /-- The file or a directory above it could not be made. -/
  | io (path : Path) (reason : FileError)
  deriving DecidableEq

/-- The text shown for the error. -/
def WriteError.message : WriteError → String
  | encode name reason => s!"cannot encode {name.text}: {reason.message}"
  | io path reason => s!"io error writing {path.text}: {reason.message}"

instance : ToString WriteError := ⟨WriteError.message⟩

namespace Output

/-- The path of the file of a class. -/
def pathFor (o : Output) (name : ClassName) : Path := o.root.join name.relativePath

/-- Writes the bytes of a file, and makes the directories above it first. -/
def writeFile (path : Path) (bytes : Bytes) : EStateM WriteError FileTree Unit := fun files =>
  let above := path.parent?.getD ⟨""⟩
  match FileTree.createDirectories above files with
  | .error e files => .error (.io above e) files
  | .ok () files => match FileTree.write path bytes files with
    | .error e files => .error (.io path e) files
    | .ok () files => .ok () files

/-- Freezes a class and writes its bytes. A class whose file could not be
written stays frozen. -/
def write (o : Output) : EStateM WriteError (Artifact × FileTree) WrittenFile :=
  fun (a, files) => match Artifact.freeze a with
    | .error e a => .error (.encode a.name e) (a, files)
    | .ok bytes a =>
      let path := o.pathFor a.name
      match writeFile path bytes files with
      | .error e files => .error e (a, files)
      | .ok () files =>
        .ok { name := a.name, path, hash := ContentHash.compute bytes } (a, files)

end Output

end ClassStamp
