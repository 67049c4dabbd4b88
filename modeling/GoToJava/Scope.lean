import GoToJava.Go.Syntax
import GoToJava.Table

/-!
Variables and their types. Each function has one table of variables, chained to the table of its
package: blocks share the table of their function, so that a name declared again replaces the
variable of the outer block.
-/

namespace GoToJava

open Go (Expr)

/-- The variables of a function or a package. -/
structure Scope where
  vars : Table Expr := {}
  parent : Option Nat := none
  deriving Inhabited

/-- All scopes, by number. A parent is older than its children. -/
structure Scopes where
  scopes : Array Scope := #[]
  deriving Inhabited

namespace Scopes

/-- The number of the next scope. -/
def next (s : Scopes) : Nat := s.scopes.size

/-- Opens a scope, which gets the next number. -/
def new (s : Scopes) (parent : Option Nat) : Scopes := ⟨s.scopes.push { parent }⟩

def setVar (s : Scopes) (scope : Nat) (name : String) (type : Expr) : Scopes :=
  ⟨s.scopes.modify scope fun x => { x with vars := x.vars.set name type }⟩

/-- What a name is bound to in the nearest scope that binds it. -/
def var (s : Scopes) (scope : Nat) (name : String) : Option Expr :=
  let here := s.scopes.getD scope {}
  match here.vars.get? name with
  | some type => some type
  | none =>
    match here.parent with
    | some parent => if parent < scope then s.var parent name else none
    | none => none

def isVar (s : Scopes) (scope : Nat) (name : String) : Bool := (s.var scope name).isSome

end Scopes

end GoToJava
