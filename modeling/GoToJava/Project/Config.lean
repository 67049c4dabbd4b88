import GoToJava.Project.Path
import GoToJava.Toml.Reader

/-!
The configuration of a run. It comes from a file, from the environment and from the command line;
what comes later counts.
-/

namespace GoToJava

structure Config where
  /-- The directory of the Go sources. -/
  goSource : Option String := none
  /-- The directory of the Java project. -/
  javaTarget : Option String := none
  /-- The Go installation with the sources of the libraries. -/
  goRoot : Option String := none
  /-- Whether every Java source is printed. -/
  printSources : Bool := false
  projectName : Option String := none
  deriving DecidableEq, Repr, Inhabited

namespace Config

def fileName : String := "go2j.toml"

def defaultGoRoot : String := "/usr/local/go"

/-- What is not set in the later configuration is taken from the earlier one. -/
def merge (earlier later : Config) : Config where
  goSource := later.goSource <|> earlier.goSource
  javaTarget := later.javaTarget <|> earlier.javaTarget
  goRoot := later.goRoot <|> earlier.goRoot
  printSources := later.printSources || earlier.printSources
  projectName := later.projectName <|> earlier.projectName

/-- The environment may name another Go installation. -/
def withEnvironment (c : Config) (goRoot : Option String) : Config :=
  match goRoot with
  | some dir => if dir.isEmpty then c else { c with goRoot := some dir }
  | none => c

def effectiveGoRoot (c : Config) : String := c.goRoot.getD defaultGoRoot

/-- The name of the project is the name of its directory, unless it is given. -/
def effectiveName (c : Config) : Option String :=
  c.projectName <|> c.javaTarget.bind Path.fileName?

/-! ## Configuration files -/

open Toml (Value Entries)

def textOf? : Value → Option String
  | .string text => some text
  | _ => none

def boolOf? : Value → Option Bool
  | .bool b => some b
  | _ => none

/-- The values of some keys of a section. A section that is a list has them in order, and a date has
none. -/
def settings? (keys : List String) : Option Value → Option (List (Option Value))
  | none => some (keys.map fun _ => none)
  | some (.table _ entries) => some (keys.map (entries.lookup ·))
  | some (.inline entries) => some (keys.map (entries.lookup ·))
  | some (.moment _) => some (keys.map fun _ => none)
  | some (.array items) => some (keys.zipIdx.map fun (_, i) => items[i]?)
  | some (.tables items) => some (keys.zipIdx.map fun (_, i) => items[i]?.map (.table .header))
  | some _ => none

/-- What a value that may be left out stands for. -/
def optional? {α : Type} (of : Value → Option α) : Option Value → Option (Option α)
  | none => some none
  | some v => (of v).map some

def ofEntries? (entries : Entries) : Option Config := do
  let paths ← settings? ["go_src", "java_src", "goroot"] (entries.lookup "paths")
  let output ← settings? ["print_sources", "project_name"] (entries.lookup "output")
  return {
    goSource := ← optional? textOf? paths[0]?.join
    javaTarget := ← optional? textOf? paths[1]?.join
    goRoot := ← optional? textOf? paths[2]?.join
    printSources := (← optional? boolOf? output[0]?.join).getD false
    projectName := ← optional? textOf? output[1]?.join }

/-- Reads a configuration file. Keys that it does not know do not count. -/
def ofToml? (text : String) : Option Config := (Toml.read? text).bind ofEntries?

end Config

/-- Why a configuration file that was asked for cannot be used. -/
inductive ConfigError where
  | unreadable (path : String)
  | malformed (path : String)
  deriving DecidableEq, Repr, Inhabited

def ConfigError.message : ConfigError → String
  | unreadable path => "failed to read config " ++ path
  | malformed path => "failed to parse config " ++ path

end GoToJava
