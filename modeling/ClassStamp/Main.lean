import ClassStamp.CommandLine.Outcome

/-!
# The program

The files that a command may see are named on standard input, one path a line,
with a slash behind the path of a directory. The program reads them, does what
its arguments ask for, and writes back what changed.
-/

namespace ClassStamp.CommandLine

/-- The lines of a stream without the ends of the lines. -/
partial def readLines (input : IO.FS.Stream) : IO (List String) := do
  let line ← input.getLine
  if line.isEmpty then return []
  let text := if line.endsWith "\n" then (line.dropEnd 1).toString else line
  return text :: (← readLines input)

/-- The tree with the file or directory at a path. -/
def readInto (files : FileTree) (line : String) : IO FileTree := do
  let path : Path := ⟨line⟩
  let change ← if FileTree.endsInSlash path then pure (FileTree.createDirectories path)
    else do
      let content ← IO.FS.readBinFile line
      pure (FileTree.writeBelow path content.toList)
  match change files with
  | .ok () files => return files
  | .error e _ => throw (IO.userError s!"{line}: {e.message}")

/-- Writes a file or directory to its place. -/
def writeBack (place : FileTree.Place) (node : FileTree.Node) : IO Unit := do
  let path := String.join (place.reverse.map ("/" ++ ·))
  match node with
  | .directory _ => IO.FS.createDirAll path
  | .file content => IO.FS.writeBinFile path ⟨content.toArray⟩

/-- Carries out the command that the arguments ask for. -/
def carryOut (arguments : List String) : IO UInt32 := do
  let here : Path := ⟨toString (← IO.currentDir)⟩
  let start := FileTree.empty (here.components.filterMap fun
    | .name text => some text
    | _ => none)
  let files ← (← readLines (← IO.getStdin)).foldlM readInto start
  let outcome := perform arguments (← IO.getEnv Ambient.environmentVariable) files
  (← IO.getStdout).putStr outcome.output
  if let some line := outcome.error then (← IO.getStderr).putStrLn line
  for (place, node) in files.madeSince outcome.files do writeBack place node
  return outcome.exitCode.toUInt32

end ClassStamp.CommandLine

/-- Carries out the command that the arguments ask for. -/
def main (arguments : List String) : IO UInt32 := ClassStamp.CommandLine.carryOut arguments
