import GoToJava.Place

/-!
What is left to be written when all declarations are known. A task keeps the place it was left at.
-/

namespace GoToJava

open Go (Expr BinaryOp)

/-- How a type is written. -/
structure Style where
  /-- What arrays and maps hold in place of them. -/
  elementOnly : Bool := false
  /-- A class that can be constructed in place of an interface. -/
  implementation : Bool := false
  /-- Classes in place of basic types. -/
  boxed : Bool := false
  /-- At once, whatever is still to be declared. -/
  direct : Bool := false
  /-- Function types as references to functions. -/
  reference : Bool := false
  /-- A map as the variable of a loop over its entries. -/
  entry : Bool := false
  deriving DecidableEq, Repr, Inhabited

namespace Style

def atOnce : Style := { direct := true }

def references : Style := { reference := true }

def constructed : Style := { implementation := true }

end Style

/-- A loop over a value, with the names of its variables. -/
structure RangeLoop where
  key : Option String
  value : Option String
  iterable : Expr
  deriving Inhabited

/-- What happens to an element. -/
inductive ElementUpdate (ε : Type) where
  | set (value : ε)
  | compound (op : BinaryOp) (value : ε)
  /-- One more, or one less. -/
  | step (up : Bool)
  deriving Inhabited

def ElementUpdate.map {ε φ : Type} (f : ε → φ) : ElementUpdate ε → ElementUpdate φ
  | set value => .set (f value)
  | compound op value => .compound op (f value)
  | step up => .step up

/-- Text that depends on declarations still to come. -/
inductive Task where
  /-- The Java name of a type. -/
  | typeName (type : Expr) (style : Style)
  /-- The type of a variable declared by its value. -/
  | declared (name : String) (value : Expr) (style : Style)
  | rangeHeader (loop : RangeLoop)
  /-- The variables declared at the top of a loop's body. -/
  | rangeBindings (loop : RangeLoop)
  | elementUpdate (base index : Expr) (update : ElementUpdate Expr)
  | element (base index : Expr)
  | slice (base : Expr) (low high : Option Expr)
  | length (value : Expr)
  /-- A returned value, whose class may have to implement the declared interface. -/
  | conformance (value declared : Expr)
  deriving Inhabited

/-- How the text of a task stands in the text around it. -/
inductive Placement where
  /-- Within a line. -/
  | inline
  /-- A statement: what follows starts on a new line. -/
  | statement
  /-- Lines of their own. -/
  | block
  deriving DecidableEq, Repr, Inhabited

namespace Task

def placement : Task → Placement
  | elementUpdate .. => .statement
  | rangeBindings .. => .block
  | _ => .inline

/-- Tasks that are never put off. -/
def direct : Task → Bool
  | typeName _ style => style.direct
  | declared _ _ style => style.direct
  | _ => false

end Task

/-- A task and where its text goes. -/
structure Pending where
  cursor : Cursor
  task : Task
  deriving Inhabited

end GoToJava
