import GoToJava.Draft
import GoToJava.Go.Name
import GoToJava.Java.Library
import GoToJava.Java.Primitive
import GoToJava.Scope
import GoToJava.Task
import GoToJava.Unit

/-!
A program on its way to Java. Its files are discovered one by one; when it is final, all that was
put off is written; then the text of each unit is flattened into one piece.
-/

namespace GoToJava

open Go (Expr FuncDecl title)

inductive Phase where
  | discovery
  | finalization
  | flattened
  deriving DecidableEq, Repr, Inhabited

/-- A method that was met before its struct, and where it was met. -/
structure ParkedMethod where
  cls : String
  decl : FuncDecl
  cursor : Cursor
  deriving Inhabited

structure Program where
  drafts : Drafts Pending := {}
  units : Array CompilationUnit := #[]
  /-- Units by their keys. -/
  unitIndex : Table Nat := {}
  /-- Units of exported types by the names of the types. -/
  typeUnits : Table Nat := {}
  classes : Array JavaClass := #[]
  classIndex : Table Nat := {}
  /-- Names of interfaces. -/
  interfaces : NameSet := {}
  /-- What named types stand for that are neither structs nor interfaces. -/
  typeNames : Table Expr := {}
  scopes : Scopes := {}
  /-- Imported libraries with the unit of their symbols, if they were found. -/
  libraries : Table (Option Nat) := {}
  parked : List ParkedMethod := []
  phase : Phase := .discovery
  /-- The number of the constant being written in its group. -/
  iota : Option Nat := none
  /-- Why text was refused, if that ever happened. -/
  refused : Option DraftError := none
  deriving Inhabited

namespace Program

/-- How often a name is followed to what it stands for, before it is taken to run in a circle. -/
def maxDepth : Nat := 32

def unit (p : Program) (id : Nat) : CompilationUnit := p.units.getD id default

def modifyUnit (p : Program) (id : Nat) (f : CompilationUnit → CompilationUnit) : Program :=
  { p with units := p.units.modify id f }

def classAt (p : Program) (id : Nat) : JavaClass := p.classes.getD id default

def modifyClass (p : Program) (id : Nat) (f : JavaClass → JavaClass) : Program :=
  { p with classes := p.classes.modify id f }

/-- Writes at the end of a draft that is not joined. -/
def write (p : Program) (draft : Nat) (text : String) : Program :=
  match p.drafts.write draft text with
  | .ok drafts => { p with drafts }
  | .error e => { p with refused := some e }

def isVar (p : Program) (at_ : Place) (name : String) : Bool := p.scopes.isVar at_.scope name

/-- What a place's file means by the name of a package. -/
def importName (p : Program) (at_ : Place) (name : String) : Option ImportName :=
  (p.unit (p.unit at_.unit).packageUnit).importNames.get? name

/-- The unit that holds the symbols of the package imported by a name. -/
def importedUnit (p : Program) (at_ : Place) (name : String) : Option Nat :=
  (p.importName at_ (title name)).bind fun i => p.unitIndex.get? i.unitKey

/-- The type that a named type stands for in the end. -/
def unalias (p : Program) (type : Expr) : Expr := go maxDepth type
where
  go : Nat → Expr → Expr
    | 0, type => type
    | depth + 1, .ident name =>
      match p.typeNames.get? (title name) with
      | some target => if Java.isPrimitive name then .ident name else go depth target
      | none => .ident name
    | _ + 1, type => type

/-- The number of the class of a named type. -/
def classOf? (p : Program) (type : Expr) : Option Nat :=
  match type.stripPointer with
  | .ident name => p.classIndex.get? (title name)
  | _ => none

/-- The unit whose tables know the functions of a named type. -/
def unitOf? (p : Program) (type : Expr) : Option Nat :=
  match type.stripPointer with
  | .ident name =>
    match p.classIndex.get? (title name) with
    | some cls => some (p.classAt cls).unit
    | none => p.typeUnits.get? (title name)
  | _ => none

/-- The first result of a function of the package imported by a name. -/
def importedFunc? (p : Program) (at_ : Place) (package name : String) : Option Expr :=
  (p.importedUnit at_ package).bind fun u => (p.unit u).symbols.funcs.get? name

/-- The first result of a function of this unit or its package. -/
def localFunc? (p : Program) (at_ : Place) (name : String) : Option Expr :=
  let unit := p.unit at_.unit
  unit.funcs.get? name <|> (p.unit unit.packageUnit).funcs.get? name

/-- Whether a call of this converts its argument to a type. -/
def isTypeCallee (p : Program) (at_ : Place) : Expr → Bool
  | .paren e | .star e => p.isTypeCallee at_ e
  | .ident name =>
    !p.isVar at_ name &&
      (Java.isPrimitive name || p.typeNames.contains (title name)
        || p.classIndex.contains (title name))
  | .selector (.ident package) name => Java.types.contains (package ++ "." ++ name)
  | .structType _ => false
  | e => e.isTypeExpr

/-- The type of a value as far as it can be told before all declarations are known. -/
def guessType (p : Program) (at_ : Place) : Expr → Expr
  | .ident name => (p.scopes.var at_.scope name).getD (.ident name)
  | .composite (some type) _ => type
  | .assert _ (some type) => type
  | .unary .addr e => p.guessType at_ e
  | .paren e => p.guessType at_ e
  | e => e

end Program

end GoToJava
