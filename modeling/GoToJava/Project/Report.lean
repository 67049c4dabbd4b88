import GoToJava.Program.Flattening

/-! What a run tells about its result. -/

namespace GoToJava

/-- How a run reports. -/
inductive Report where
  /-- A line for each file that was written. -/
  | paths
  /-- Every Java source. -/
  | sources
  /-- A summary in JSON. -/
  | json
  | quiet
  deriving DecidableEq, Repr, Inhabited

/-- The result of a run: the Java sources, and which files could be written and which could not. -/
structure Summary where
  units : List JavaSource
  written : List String
  failed : List String
  deriving DecidableEq, Repr, Inhabited

namespace Report

/-- A character in a JSON string. -/
def jsonChar (c : Char) : List Char :=
  match c with
  | '\"' => ['\\', '\"']
  | '\\' => ['\\', '\\']
  | '\n' => ['\\', 'n']
  | '\r' => ['\\', 'r']
  | '\t' => ['\\', 't']
  | '\x08' => ['\\', 'b']
  | '\x0c' => ['\\', 'f']
  | c =>
    if c.toNat < 0x20 then
      ['\\', 'u', '0', '0', (c.toNat / 16).digitChar, (c.toNat % 16).digitChar]
    else [c]

def jsonString (text : String) : String :=
  "\"" ++ String.ofList (text.toList.flatMap jsonChar) ++ "\""

/-- A list or an object in JSON, with each item on a line of its own. -/
def jsonItems (opening closing indent : String) (items : List String) : String :=
  if items.isEmpty then opening ++ closing
  else
    let inner := "\n" ++ indent ++ "  "
    opening ++ inner ++ ("," ++ inner).intercalate items ++ "\n" ++ indent ++ closing

def jsonField (name value : String) : String := jsonString name ++ ": " ++ value

def jsonUnit (indent : String) (s : JavaSource) : String :=
  jsonItems "\x7b" "\x7d" indent [
    jsonField "path" (jsonString s.path),
    jsonField "package" (jsonString s.package),
    jsonField "class" (jsonString s.cls),
    jsonField "qualified_name" (jsonString s.qualifiedName),
    jsonField "text" (jsonString s.text)]

/-- A summary in JSON. -/
def jsonSummary (s : Summary) : String :=
  jsonItems "\x7b" "\x7d" "" [
    jsonField "units" (jsonItems "[" "]" "  " (s.units.map (jsonUnit "    "))),
    jsonField "written" (jsonItems "[" "]" "  " (s.written.map jsonString)),
    jsonField "failed" (jsonItems "[" "]" "  " (s.failed.map jsonString))]

/-- One Java source below its name. -/
def banner (s : JavaSource) : String :=
  "---------- " ++ s.qualifiedName ++ " ----------\n" ++ s.text ++ "\n"

/-- What a run prints when it is done. -/
def text (report : Report) (s : Summary) : String :=
  match report with
  | .paths => String.join (s.written.map fun path => "add: " ++ path ++ "\n")
  | .sources => String.join (s.units.map banner)
  | .json => jsonSummary s ++ "\n"
  | .quiet => ""

end Report

end GoToJava
