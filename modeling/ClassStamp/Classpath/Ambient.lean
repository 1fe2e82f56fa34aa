import ClassStamp.Path

/-!
# The ambient classpath

The directories that every run sees behind its own classpath. Whoever adds
directories holds a guard, and giving the guard back takes exactly its own
directories away again, whatever other guards did meanwhile.

* `Ambient.extend` adds directories, `Ambient.release` takes them away.
-/

namespace ClassStamp

/-- The directories that every run sees. -/
structure Ambient where
  /-- The directories in search order. -/
  paths : List Path
  deriving DecidableEq, Inhabited

namespace Ambient

/-- The environment variable that the ambient classpath begins with. -/
def environmentVariable : String := "CLASSFORGE_CLASSPATH"

/-- The directories that one holder added. -/
structure Guard where
  /-- The directories in the order in which they were added. -/
  added : List Path
  deriving DecidableEq

/-- The ambient classpath that the text of the environment variable gives:
directories with a colon between each two. -/
def ofVariable : Option String → Ambient
  | none => ⟨[]⟩
  | some s => ⟨(Text.split ':' s.toList).map fun cs => ⟨String.ofList cs⟩⟩

/-- The classpath with directories added at the end, and the guard over
them. -/
def extend (a : Ambient) (paths : List Path) : Guard × Ambient := (⟨paths⟩, ⟨a.paths ++ paths⟩)

/-- The paths without the first one that is the same as `p`. -/
def dropFirst (p : Path) : List Path → List Path
  | [] => []
  | q :: rest => if q.sameAs p then rest else q :: dropFirst p rest

/-- The classpath without the directories of a guard, the last one first. Of
directories that are the same, the last one is taken away. -/
def release (a : Ambient) (g : Guard) : Ambient :=
  ⟨(g.added.reverse.foldl (fun paths p => dropFirst p paths) a.paths.reverse).reverse⟩

end Ambient

end ClassStamp
