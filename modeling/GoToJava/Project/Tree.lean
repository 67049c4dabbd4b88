import GoToJava.Project.Disk
import GoToJava.Project.Path

/-!
A file system in memory. Relative paths start at its working directory, and absolute paths lead away
from it.
-/

namespace GoToJava

/-- A place in a file system, as the names that lead to it. -/
structure Location where
  absolute : Bool
  names : List String
  deriving DecidableEq, Repr, Inhabited

namespace Location

def up (l : Location) : Location := { l with names := l.names.dropLast }

def child (l : Location) (name : String) : Location := { l with names := l.names ++ [name] }

/-- The names that lead from one location to another below it. -/
def below? (l other : Location) : Option (List String) :=
  if l.absolute = other.absolute ∧ l.names <+: other.names then
    some (other.names.drop l.names.length)
  else none

end Location

/-- What is at a location. A file without a text holds bytes that are not UTF-8. -/
inductive Entry where
  | directory
  | file (text : Option String)
  deriving DecidableEq, Repr, Inhabited

/-- A file system. -/
structure Tree where
  nodes : List (Location × Entry) := []
  deriving Inhabited

namespace Tree

/-- What is at a location. The directories that paths start at are always there. -/
def at? (t : Tree) (l : Location) : Option Entry :=
  if l.names.isEmpty then some .directory else t.nodes.lookup l

def isDirectory (t : Tree) (l : Location) : Bool := t.at? l == some .directory

def put (t : Tree) (l : Location) (node : Entry) : Tree :=
  ⟨t.nodes.filter (·.1 ≠ l) ++ [(l, node)]⟩

/-- Where a path leads. All but the last location on the way have to be directories. -/
def locate? (t : Tree) (path : String) : Option Location :=
  if path.isEmpty then none
  else (Path.pieces path).foldlM (fun l piece =>
    if !t.isDirectory l then none
    else if piece = "" ∨ piece = "." then some l
    else if piece = ".." then some l.up
    else some (l.child piece)) ⟨Path.isAbsolute path, []⟩

def readText (t : Tree) (path : String) : Option String :=
  match (t.locate? path).bind t.at? with
  | some (.file text) => text
  | _ => none

def walk (t : Tree) (path : String) : List (List String) :=
  match t.locate? path with
  | none => []
  | some l => t.nodes.filterMap fun (found, node) =>
    match node with
    | .file _ => l.below? found
    | .directory => none

/-- Goes one piece of a path further and makes the directory that it names. A file in the way
stays. -/
def makeStep : Tree × Location → String → Option (Tree × Location)
  | (t, l), piece =>
    if piece = "" ∨ piece = "." then some (t, l)
    else if piece = ".." then some (t, l.up)
    else
      match t.at? (l.child piece) with
      | none => some (t.put (l.child piece) .directory, l.child piece)
      | some .directory => some (t, l.child piece)
      | some (.file _) => none

/-- Makes the directories on a path. -/
def makeDirs? (t : Tree) (path : String) : Option Tree :=
  ((Path.pieces path).foldlM makeStep (t, ⟨Path.isAbsolute path, []⟩)).map (·.1)

def writeText? (t : Tree) (path text : String) : Option Tree :=
  (t.locate? path).bind fun l =>
    if t.isDirectory l then none else some (t.put l (.file (some text)))

/-- The files below the working directory, with their texts. -/
def files (t : Tree) : List (String × Option String) :=
  t.nodes.filterMap fun (l, node) =>
    match l.absolute, node with
    | false, .file text => some ("/".intercalate l.names, text)
    | _, _ => none

/-- Makes a change if it can be made. -/
def attempt (change : Tree → Option Tree) : StateM Tree Bool :=
  modifyGet fun t =>
    match change t with
    | some t => (true, t)
    | none => (false, t)

/-- A disk in memory. -/
def disk : Disk (StateM Tree) where
  readText path := return (← get).readText path
  walk path := return (← get).walk path
  makeDirs path := attempt (·.makeDirs? path)
  writeText path text := attempt (·.writeText? path text)

/-- A file system with some files and the directories they need. -/
def ofFiles (files : List (String × Option String)) : Tree :=
  files.foldl (fun t (path, text) =>
    let t := ((Path.parent? path).bind t.makeDirs?).getD t
    match t.locate? path with
    | some l => t.put l (.file text)
    | none => t) {}

end Tree

end GoToJava
