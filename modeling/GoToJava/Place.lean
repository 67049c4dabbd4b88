import GoToJava.Go.Syntax

/-! Where text is written, and what is known there. -/

namespace GoToJava

/-- The receiver of the method being written: its name in Go and its class. -/
structure Receiver where
  name : String
  cls : Nat
  deriving Inhabited

/-- A place text is written at. -/
structure Place where
  draft : Nat
  tabs : Nat := 0
  /-- Statements end without a semicolon and a new line, as between the parentheses of a loop. -/
  bare : Bool := false
  /-- The text is only looked at, and has to be there at once. -/
  scratch : Bool := false
  unit : Nat
  scope : Nat
  receiver : Option Receiver := none
  /-- The first result of the function around this place. -/
  result : Option Go.Expr := none
  deriving Inhabited

/-- The place one level deeper. -/
def Place.deeper (p : Place) : Place := { p with tabs := p.tabs + 1, bare := false }

/-- A place, and whether its indentation is still owed. -/
structure Cursor where
  place : Place
  owed : Bool := true
  deriving Inhabited

end GoToJava
