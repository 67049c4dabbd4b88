import GoToJava.Go.Syntax
import GoToJava.Table

/-!
What other packages may know of a package. Symbols are only ever added, and the first declaration of
a name counts.
-/

namespace GoToJava

open Go (Expr)

structure Symbols where
  /-- First results of functions. -/
  funcs : Table Expr := {}
  /-- Declared types of variables. -/
  vars : Table Expr := {}
  /-- Initial values of variables declared without a type. -/
  values : Table Expr := {}
  deriving Inhabited

namespace Symbols

def addFunc (s : Symbols) (name : String) (result : Expr) : Symbols :=
  { s with funcs := s.funcs.add name result }

def addType (s : Symbols) (name : String) (type : Expr) : Symbols :=
  { s with vars := s.vars.add name type }

def addValue (s : Symbols) (name : String) (value : Expr) : Symbols :=
  { s with values := s.values.add name value }

end Symbols

end GoToJava
