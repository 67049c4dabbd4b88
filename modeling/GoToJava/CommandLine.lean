import GoToJava.Project.Config

/-! What the arguments of the command line ask for. -/

namespace GoToJava

/-- Options that take a value. -/
inductive ValueOption where
  | goSource
  | javaTarget
  | goRoot
  | configFile
  deriving DecidableEq, Repr, Inhabited

namespace ValueOption

def ofName? : String → Option ValueOption
  | "--go-src" | "--gs" => some goSource
  | "--java-src" | "--js" => some javaTarget
  | "--goroot" => some goRoot
  | "--config" => some configFile
  | _ => none

/-- The option and its value as the help shows them. -/
def usage : ValueOption → String
  | goSource => "--go-src <DIR>"
  | javaTarget => "--java-src <DIR>"
  | goRoot => "--goroot <DIR>"
  | configFile => "--config <FILE>"

end ValueOption

/-- Options without a value. -/
inductive Switch where
  | printSources
  | json
  | verbose
  | help
  | version
  deriving DecidableEq, Repr, Inhabited

namespace Switch

def ofName? : String → Option Switch
  | "--print-sources" | "--psrc" => some printSources
  | "--json" => some json
  | "-v" | "-vv" | "--verbose" => some verbose
  | "-h" | "--help" => some help
  | "-V" | "--version" => some version
  | _ => none

end Switch

inductive UsageError where
  | unexpected (argument : String)
  | missing (option : ValueOption)
  | repeated (option : ValueOption)
  /-- Sources are printed, or a summary in JSON, but not both. -/
  | conflict
  deriving DecidableEq, Repr, Inhabited

def UsageError.message : UsageError → String
  | unexpected argument => "unexpected argument '" ++ argument ++ "' found"
  | missing option => "a value is required for '" ++ option.usage ++ "' but none was supplied"
  | repeated option => "the argument '" ++ option.usage ++ "' cannot be used multiple times"
  | conflict => "the argument '--json' cannot be used with '--print-sources'"

/-- What the arguments say. -/
structure CommandLine where
  values : List (ValueOption × String) := []
  switches : List Switch := []
  deriving DecidableEq, Repr, Inhabited

namespace CommandLine

def add (c : CommandLine) (option : ValueOption) (value : String) :
    Except UsageError CommandLine :=
  match c.values.lookup option with
  | some _ => .error (.repeated option)
  | none => .ok { c with values := (option, value) :: c.values }

/-- An argument of the form `name=value`. -/
def assignment? (argument : String) : Option (String × String) :=
  let (name, rest) := argument.toList.span (· ≠ '=')
  match rest with
  | _ :: value => some (String.ofList name, String.ofList value)
  | [] => none

def looksLikeOption (argument : String) : Bool := argument.startsWith "-" && argument != "-"

/-- Reads arguments after those that were read before. -/
def read (c : CommandLine) : List String → Except UsageError CommandLine
  | [] =>
    if c.switches.contains .json && c.switches.contains .printSources then .error .conflict
    else .ok c
  | argument :: rest =>
    match Switch.ofName? argument, ValueOption.ofName? argument with
    | some s, _ => read { c with switches := s :: c.switches } rest
    | none, some option =>
      match rest with
      | [] => .error (.missing option)
      | value :: rest =>
        if looksLikeOption value then .error (.missing option)
        else do (← c.add option value).read rest
    | none, none =>
      match (assignment? argument).bind fun (name, value) =>
          (ValueOption.ofName? name).map (·, value) with
      | some (option, value) => do (← c.add option value).read rest
      | none => .error (.unexpected argument)

/-- The configuration that the arguments give. -/
def config (c : CommandLine) : Config where
  goSource := c.values.lookup .goSource
  javaTarget := c.values.lookup .javaTarget
  goRoot := c.values.lookup .goRoot
  printSources := c.switches.contains .printSources

def helpText : String :=
  "Go to Java raw cross compiler\n" ++
  "\n" ++
  "Usage: go2j [OPTIONS]\n" ++
  "\n" ++
  "Options:\n" ++
  "      --go-src <DIR>    Go package directory to translate; must lie under a src directory " ++
  "[aliases: --gs]\n" ++
  "      --java-src <DIR>  Java project directory to write [aliases: --js]\n" ++
  "      --goroot <DIR>    Go installation providing the standard library sources\n" ++
  "      --print-sources   Print every generated source file [aliases: --psrc]\n" ++
  "      --json            Print a JSON summary instead of file paths\n" ++
  "      --config <FILE>   Config file (defaults to ./go2j.toml)\n" ++
  "  -v, --verbose         Allowed, without effect\n" ++
  "  -h, --help            Print help\n" ++
  "  -V, --version         Print version\n"

def versionText : String := "go2j 0.1.0\n"

end CommandLine

end GoToJava
