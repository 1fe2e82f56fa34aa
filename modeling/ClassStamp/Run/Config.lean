import ClassStamp.Classpath.Entry

/-!
# Run configuration

Where a run reads classes, where it writes them, and what else is on the
classpath. A directory whose path is blank counts as not given.

* `Config.inputDirectory?` and `outputDirectory?` are the directories in use.
-/

namespace ClassStamp.Run

/-- The directories of a run. -/
structure Config where
  /-- Where the classes are. -/
  input : Option Path
  /-- Where transformed classes go; by default back to where they came
  from. -/
  output : Option Path
  /-- Directories of classes that others need, in search order. -/
  classpath : List Path
  /-- A loader of such classes, behind the directories. -/
  loader : Option Classpath.Loader
  deriving Inhabited

namespace Config

/-- The configuration with only the input directory set. -/
def new (input : Path) : Config :=
  { input := some input, output := none, classpath := [], loader := none }

/-- The directory of the classes. -/
def inputDirectory? (c : Config) : Option Path := c.input.filter (!·.isBlank)

/-- The directory that transformed classes go to. -/
def outputDirectory? (c : Config) : Option Path :=
  (c.output.filter (!·.isBlank)).or c.inputDirectory?

/-- The entries of the classpath: the input, the directories, the loader and
the ambient classpath. -/
def entries (c : Config) (input : Path) (ambient : List Path) : List Classpath.Entry :=
  .directory input :: c.classpath.map .directory ++ c.loader.toList.map .loader ++
    [.system ambient]

end Config

end ClassStamp.Run
