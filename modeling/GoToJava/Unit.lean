import GoToJava.NameSet
import GoToJava.Place
import GoToJava.Symbols

/-!
Compilation units: the class of a Go package, or the class of one of its exported types. The
directory of a package is its Java package.
-/

namespace GoToJava

open Go (Expr)

/-- What a file means by the name of an imported package. -/
structure ImportName where
  /-- The key of the unit that holds the symbols of the package. -/
  unitKey : String
  /-- The class to import where the package is used, for packages of the same program. -/
  qualified : Option String
  deriving DecidableEq, Repr, Inhabited

/-- The key of a unit. -/
def unitKey (dir name : String) : String := dir ++ "/" ++ name

/-- The name with dots for slashes. -/
def dotted (path : String) : String := path.map fun c => if c = '/' then '.' else c

structure CompilationUnit where
  dir : String
  name : String
  isPackage : Bool
  /-- Read for its signatures, and never written. -/
  library : Bool
  /-- The draft of its text. -/
  root : Nat
  /-- The unit of the package this unit belongs to. -/
  packageUnit : Nat
  /-- The draft of its import lines. -/
  importsAt : Option Nat := none
  /-- What the files of this package mean by the names of packages. -/
  importNames : Table ImportName := {}
  /-- Classes named in its text. -/
  referenced : NameSet := {}
  /-- Classes that its text needs by their full names. -/
  imports : NameSet := {}
  /-- First results of the functions written into this unit. -/
  funcs : Table Expr := {}
  symbols : Symbols := {}
  /-- The variables of the package. -/
  scope : Nat
  deriving Inhabited

namespace CompilationUnit

def key (u : CompilationUnit) : String := unitKey u.dir u.name

def javaPackage (u : CompilationUnit) : String := dotted u.dir

def qualifiedName (u : CompilationUnit) : String :=
  if u.dir.isEmpty then u.name else u.javaPackage ++ "." ++ u.name

/-- Where the text is to be stored. -/
def path (u : CompilationUnit) : String :=
  (u.qualifiedName.map fun c => if c = '.' then '/' else c) ++ ".java"

/-- The start of the unit's text. -/
def start (u : CompilationUnit) (id : Nat) : Place :=
  { draft := u.root, unit := id, scope := u.scope }

end CompilationUnit

/-- The class of a struct. -/
structure JavaClass where
  name : String
  unit : Nat
  /-- After the class's name and what it extends. -/
  implementsAt : Cursor
  /-- After the constructors. -/
  functionsAt : Cursor
  /-- Interfaces the class is known to implement. -/
  interfaces : NameSet := {}
  /-- Types of the fields. -/
  fields : Table Expr := {}
  /-- First results of the methods. -/
  methods : Table Expr := {}
  deriving Inhabited

end GoToJava
