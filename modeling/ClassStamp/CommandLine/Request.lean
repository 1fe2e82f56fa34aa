import ClassStamp.Build.Config

/-!
# Command line arguments

What the arguments of the program ask for. Options come before or behind the
name of the command, where the command allows them; an option that two places
give counts behind the name. A value is checked when the next option comes, so
that a request for help wins over what is wrong behind it, but not over what
is wrong in front of it.

* `Request.parse` reads the arguments.
-/

namespace ClassStamp.CommandLine

/-- Options of the commands that change classes. -/
structure Options where
  /-- Where the main classes are, instead of what the configuration says. -/
  buildDirectory : Option Path
  /-- Where main classes go, instead of what the configuration says. -/
  outputDirectory : Option Path
  /-- Whether to leave the test classes alone. -/
  skipTests : Bool
  /-- Whether to show the report as JSON. -/
  json : Bool

/-- What to do. -/
inductive Command
  /-- Transform the classes of a project. -/
  | run (options : Options)
  /-- Take the stamps of the transformers of a project away. -/
  | unstamp (options : Options)
  /-- List the classes below a directory. -/
  | list (directory : Path)

/-- What to do, and the configuration to do it by. -/
structure Request where
  /-- The configuration file. -/
  configuration : Path
  /-- What to do. -/
  command : Command

/-- Why there is no request. -/
inductive Stop
  /-- The arguments make no sense. -/
  | misuse
  /-- They ask how the program is used. -/
  | help
  /-- They ask for the version of the program. -/
  | version
  deriving DecidableEq

/-! ## Options -/

/-- Something that may be given a value. -/
inductive Key
  | config
  | logLevel
  | logJson
  | buildDirectory
  | outputDirectory
  | skipTests
  | json
  | directory
  deriving DecidableEq

/-- Whether an option has a value. -/
def Key.takesValue : Key → Bool
  | config | logLevel | buildDirectory | outputDirectory | directory => true
  | logJson | skipTests | json => false

/-- Whether the value is a path, which must not be empty. -/
def Key.isPath : Key → Bool
  | config | buildDirectory | outputDirectory | directory => true
  | logLevel | logJson | skipTests | json => false

/-- The places of arguments: in front of the name of the command, and behind
the name of each command. -/
inductive Level
  | top
  | change
  | list
  deriving DecidableEq

/-- What an option means. -/
inductive Meaning
  /-- It asks for something else than a request. -/
  | stop (reason : Stop)
  /-- It gives a key a value. -/
  | give (key : Key)

/-- The meaning of an option with two dashes. -/
def Level.long? (level : Level) (name : String) : Option Meaning :=
  match level, name with
  | _, "config" => some (.give .config)
  | _, "log-level" => some (.give .logLevel)
  | _, "log-json" => some (.give .logJson)
  | _, "help" => some (.stop .help)
  | .top, "version" => some (.stop .version)
  | .change, "build-dir" => some (.give .buildDirectory)
  | .change, "output-dir" => some (.give .outputDirectory)
  | .change, "skip-tests" => some (.give .skipTests)
  | .change, "json" => some (.give .json)
  | _, _ => none

/-- The meaning of an option with one dash. -/
def Level.short? (level : Level) (letter : Char) : Option Meaning :=
  match level, letter with
  | _, 'c' => some (.give .config)
  | _, 'h' => some (.stop .help)
  | .top, 'V' => some (.stop .version)
  | _, _ => none

/-- The names of the commands. -/
def commandNames : List String := ["run", "unstamp", "list", "help"]

/-! ## Values -/

/-- The values given at one level. -/
structure Given where
  /-- The values that were checked. -/
  values : List (Key × String)
  /-- What came last: a key that waits for its value, or a value that was not
  checked yet. -/
  last : Option (Key × Option String)

namespace Given

/-- Nothing given. -/
def none : Given := ⟨[], .none⟩

/-- The value of a key. -/
def get? (g : Given) (key : Key) : Option String := g.values.lookup key

/-- Whether a key waits for its value. -/
def isWaiting (g : Given) : Bool :=
  match g.last with
  | some (_, .none) => true
  | _ => false

/-- Gives a key its only value. -/
def give (g : Given) (key : Key) (value : String) : Except Stop Given :=
  if (g.get? key).isSome || (key.isPath && value == "") then .error .misuse
  else .ok { g with values := g.values ++ [(key, value)] }

/-- Checks what came last. -/
def settle (g : Given) : Except Stop Given :=
  match g.last with
  | .none => .ok g
  | some (_, .none) => .error .misuse
  | some (key, some value) => { g with last := .none }.give key value

/-- Takes an option, with its value if that is a part of it. -/
def take (g : Given) (value : Option String) : Option Meaning → Except Stop Given
  | .none => .error .misuse
  | some (.stop reason) =>
    if value.isSome then .error .misuse else g.settle.bind fun _ => .error reason
  | some (.give key) =>
    if key.takesValue then
      g.settle.bind fun g => match value with
        | some value => g.give key value
        | .none => .ok { g with last := some (key, .none) }
    else if value.isSome then .error .misuse
    else g.settle.bind fun g => g.give key ""

/-- Takes an argument that is no option. -/
def takePlain (g : Given) (level : Level) (text : String) : Except Stop Given :=
  match g.last with
  | some (.directory, _) => .error .misuse
  | _ =>
    if level = .list ∧ (g.get? .directory).isNone then
      g.settle.bind fun g => .ok { g with last := some (.directory, some text) }
    else .error .misuse

end Given

/-! ## Reading -/

/-- The name in front of the first equals sign, and what is behind it. -/
def splitValue (cs : List Char) : String × Option String :=
  let name := String.ofList (cs.takeWhile (· != '='))
  match cs.dropWhile (· != '=') with
  | [] => (name, none)
  | _ :: value => (name, some (String.ofList value))

/-- Takes a letter behind one dash, with its value if that follows at once. -/
def takeShort (level : Level) (g : Given) (letter : Char) (behind : List Char) :
    Except Stop Given :=
  let value := match behind with
    | [] => none
    | '=' :: value => some (String.ofList value)
    | value => some (String.ofList value)
  match level.short? letter with
  | some (.stop reason) => g.take none (some (.stop reason))
  | meaning => g.take value meaning

/-- Takes one argument. -/
def takeArgument (level : Level) (g : Given) (text : String) : Except Stop Given :=
  match text.toList with
  | '-' :: '-' :: body =>
    let (name, value) := splitValue body
    g.take value (level.long? name)
  | '-' :: letter :: behind => takeShort level g letter behind
  | _ => match g.last with
    | some (key, none) => .ok { g with last := some (key, some text) }
    | _ => g.takePlain level text

/-- Reads the arguments of one level. In front of the name of the command that
name ends the level. Behind two dashes no argument is an option or a
command. -/
def readLevel (level : Level) : Bool → Given → List String → Except Stop (Given × List String)
  | _, g, [] => .ok (g, [])
  | true, g, text :: rest =>
    (g.takePlain level text).bind fun g => readLevel level true g rest
  | false, g, text :: rest =>
    if level = .top && !g.isWaiting && commandNames.contains text then .ok (g, text :: rest)
    else if text = "--" then readLevel level true g rest
    else (takeArgument level g text).bind fun g => readLevel level false g rest

/-- Reads the arguments behind the name of a command. -/
def readCommand (level : Level) (arguments : List String) : Except Stop Given := do
  let (g, _) ← readLevel level false .none arguments
  g.settle

/-- The path that a key has as value. -/
def Given.path? (g : Given) (key : Key) : Option Path := (g.get? key).map Path.mk

/-- The options of a command that changes classes. -/
def Given.options (g : Given) : Options where
  buildDirectory := g.path? .buildDirectory
  outputDirectory := g.path? .outputDirectory
  skipTests := (g.get? .skipTests).isSome
  json := (g.get? .json).isSome

/-- The configuration file that is given behind or in front of the name of the
command. -/
def configurationOf (top command : Given) : Path :=
  ((command.path? .config).or (top.path? .config)).getD ⟨Build.Config.fileName⟩

/-- Reads a command that changes classes. -/
def readChange (top : Given) (command : Options → Command) (arguments : List String) :
    Except Stop Request := do
  let g ← readCommand .change arguments
  let top ← top.settle
  return { configuration := configurationOf top g, command := command g.options }

/-- Reads the command that lists classes. -/
def readList (top : Given) (arguments : List String) : Except Stop Request := do
  let g ← readCommand .list arguments
  match g.path? .directory with
  | none => throw .misuse
  | some directory =>
    let top ← top.settle
    return { configuration := configurationOf top g, command := .list directory }

/-- Reads the command that asks for help on another one. -/
def readHelp : List String → Stop
  | [] => .help
  | [name] => if commandNames.contains name then .help else .misuse
  | _ => .misuse

/-- The request that the arguments make. -/
def Request.parse (arguments : List String) : Except Stop Request := do
  let (top, rest) ← readLevel .top false .none arguments
  match rest with
  | "run" :: rest => readChange top .run rest
  | "unstamp" :: rest => readChange top .unstamp rest
  | "list" :: rest => readList top rest
  | "help" :: rest => throw (readHelp rest)
  | _ => throw .misuse

end ClassStamp.CommandLine
