import GoToJava.Project.Config
import GoToJava.Project.Disk
import GoToJava.Project.Report
import GoToJava.Project.Scaffold

/-!
A whole run: the Go sources of a directory become a Java project. Everything is read and converted
before anything is written.
-/

namespace GoToJava

/-- Why a run ends without a result. -/
inductive RunError where
  | noGoSource
  | noJavaTarget
  | outsideSource (path : String)
  | unreadable (path : String)
  | program (cause : ProgramError)
  | cannotCreate (path : String)
  | cannotWrite (path : String)
  deriving DecidableEq, Repr, Inhabited

def RunError.message : RunError → String
  | noGoSource => "no Go source directory given (--go-src)"
  | noJavaTarget => "no Java target directory given (--java-src)"
  | outsideSource path => path ++ " must lie under a src directory"
  | unreadable path => "failed to read " ++ path
  | program cause => cause.message
  | cannotCreate path => "failed to create " ++ path
  | cannotWrite path => "failed to write " ++ path

namespace Run

variable {m : Type → Type} [Monad m]

/-- Names of directories and files that are passed over. -/
def isPassedOver (name : String) : Bool := name.startsWith "." || name == "testdata"

/-- The Go sources among some files of a directory, in order. -/
def goSources (dir : String) (found : List (List String)) : List String :=
  ((found.map (·.foldl Path.join dir)).filter Path.isGoSource).mergeSort fun a b => !Path.before b a

/-- The Go sources in a directory and below. -/
def goFiles (disk : Disk m) (dir : String) : m (List String) := do
  return goSources dir ((← disk.walk dir).filter fun names => !names.any isPassedOver)

/-- The sources of a library. Files that cannot be read do not count. -/
def libraryFiles (disk : Disk m) (goRoot path : String) : m (List SourceFile) := do
  let src := Path.join goRoot "src"
  let dir := Path.join src path
  (goSources dir ((← disk.walk dir).filter (·.length = 1))).filterMapM fun file => do
    return (← disk.readText file).map fun text => ⟨Path.relative file src, text⟩

/-- A Go source that was read, or why it was not. -/
structure Input where
  path : String
  file : Except RunError Go.File

def readInput (disk : Disk m) (root path : String) : m Input := do
  let relative := Path.relative path root
  match ← disk.readText path with
  | none => return ⟨relative, .error (.unreadable path)⟩
  | some text =>
    match Go.read text with
    | .ok file => return ⟨relative, .ok file⟩
    | .error cause => return ⟨relative, .error (.program (.unreadable relative cause))⟩

/-- The libraries that some sources import. -/
def libraries (disk : Disk m) (goRoot : String) (inputs : List Input) : m Libraries := do
  let paths := inputs.flatMap fun i =>
    match i.file with
    | .ok file => file.imports.map (·.path)
    | .error _ => []
  let loaded ← paths.eraseDups.mapM fun path => do
    return (path, ← libraryFiles disk goRoot path)
  return fun path => (loaded.lookup path).getD []

/-- The Java sources of some Go sources. The first error counts. -/
def convert (libs : Libraries) (inputs : List Input) : Except RunError (List JavaSource) :=
  let discover : ExceptT RunError (StateM Program) Unit := inputs.forM fun i => do
    match i.file with
    | .error e => throw e
    | .ok file =>
      match ← (Program.discoverFile libs i.path file).run with
      | .ok _ => return
      | .error e => throw (.program e)
  match discover.run.run {} with
  | (.error e, _) => .error e
  | (.ok _, p) => (((Program.flatten.run).run p).1).mapError .program

/-- Writes a file, with the directory it is in. -/
def writeFile (disk : Disk m) (file : OutputFile) : ExceptT RunError m Unit := do
  match Path.parent? file.path with
  | some dir => unless ← disk.makeDirs dir do throw (.cannotCreate dir)
  | none => pure ()
  unless ← disk.writeText file.path file.text do throw (.cannotWrite file.path)

/-- Writes the files that every project has. -/
def writeScaffold (disk : Disk m) (target name : String) : ExceptT RunError m (List String) := do
  unless ← disk.makeDirs target do throw (.cannotCreate target)
  let files := Scaffold.files target name
  files.forM (writeFile disk)
  return files.map (·.path)

/-- Writes the Java sources. One that cannot be written does not keep the others from it. -/
def writeUnits (disk : Disk m) (target : String) (units : List JavaSource) :
    m (List (String × Bool)) :=
  units.mapM fun unit => do
    let path := Path.join (Scaffold.sources target) unit.path
    match ← (writeFile disk ⟨path, unit.text⟩).run with
    | .ok _ => return (path, true)
    | .error _ => return (path, false)

/-- The directories of a run. -/
structure Directories where
  source : String
  target : String
  /-- The directory around the source directory that packages are named from. -/
  root : String
  deriving DecidableEq, Repr, Inhabited

/-- The directories that a configuration names. -/
def directories (config : Config) : Except RunError Directories := do
  let some source := config.goSource | throw .noGoSource
  let some target := config.javaTarget | throw .noJavaTarget
  let some root := Path.sourceRoot? source | throw (.outsideSource source)
  return { source, target, root }

/-- Reads the Go sources of a run and the libraries they import, and converts them. -/
def produce (disk : Disk m) (dirs : Directories) (goRoot : String) :
    m (Except RunError (List JavaSource)) := do
  let inputs ← (← goFiles disk dirs.source).mapM (readInput disk dirs.root)
  return convert (← libraries disk goRoot inputs) inputs

/-- Writes a project. -/
def write (disk : Disk m) (target name : String) (units : List JavaSource) :
    m (Except RunError Summary) := do
  match ← (writeScaffold disk target name).run with
  | .error e => return .error e
  | .ok scaffold =>
    let outcomes ← writeUnits disk target units
    let select (done : Bool) := (outcomes.filter (·.2 == done)).map (·.1)
    return .ok { units, written := scaffold ++ select true, failed := select false }

end Run

/-- The report that a configuration asks for. -/
def Config.report (c : Config) : Report := if c.printSources then .sources else .paths

/-- Runs by a configuration. -/
def run {m : Type → Type} [Monad m] (disk : Disk m) (config : Config) :
    m (Except RunError Summary) := do
  match Run.directories config with
  | .error e => return .error e
  | .ok dirs =>
    match ← Run.produce disk dirs config.effectiveGoRoot with
    | .error e => return .error e
    | .ok units => Run.write disk dirs.target (config.effectiveName.getD "go2j") units

namespace Config

variable {m : Type → Type} [Monad m]

/-- The configuration file that was asked for. -/
def read (disk : Disk m) (path : String) : m (Except ConfigError Config) := do
  match ← disk.readText path with
  | none => return .error (.unreadable path)
  | some text =>
    match ofToml? text with
    | some config => return .ok config
    | none => return .error (.malformed path)

/-- The configuration file of a directory, if it has one that can be read. -/
def load (disk : Disk m) (dir : String) : m Config := do
  match ← read disk (Path.join dir fileName) with
  | .ok config => return config
  | .error _ => return {}

end Config

end GoToJava
