import GoToJava.Table

/-!
Java's spelling of what Go declares beforehand: its basic types, the values that variables of these
types start with, and names.
-/

namespace GoToJava.Java

/-- A basic type in Java: as it is written, as it is written between angle brackets, and the value
that stands for zero. -/
structure Primitive where
  plain : String
  boxed : String
  zero : Option String
  deriving DecidableEq, Repr, Inhabited

/-- The basic types by their Go names. -/
def primitives : Table Primitive := .ofList [
  ("string", ⟨"String", "String", some "\"\""⟩),
  ("bool", ⟨"boolean", "Boolean", some "false"⟩),
  ("byte", ⟨"byte", "Byte", some "0"⟩),
  ("int8", ⟨"byte", "Byte", some "0"⟩),
  ("uint8", ⟨"byte", "Byte", some "0"⟩),
  ("int16", ⟨"short", "Short", some "0"⟩),
  ("uint16", ⟨"int", "Integer", some "0"⟩),
  ("rune", ⟨"char", "Character", some "0"⟩),
  ("int", ⟨"int", "Integer", some "0"⟩),
  ("int32", ⟨"int", "Integer", some "0"⟩),
  ("uint", ⟨"int", "Integer", some "0"⟩),
  ("int64", ⟨"long", "Long", some "0"⟩),
  ("uint32", ⟨"long", "Long", some "0"⟩),
  ("uint64", ⟨"long", "Long", some "0"⟩),
  ("uintptr", ⟨"long", "Long", some "0"⟩),
  ("float32", ⟨"float", "Float", some "0"⟩),
  ("float64", ⟨"double", "Double", some "0"⟩),
  ("error", ⟨"Exception", "Exception", none⟩),
  ("any", ⟨"Object", "Object", none⟩)]

def isPrimitive (name : String) : Bool := primitives.contains name

/-- The Java name of a basic type. -/
def primitive? (name : String) (boxed : Bool) : Option String :=
  (primitives.get? name).map fun p => if boxed then p.boxed else p.plain

/-- The value that a variable of a basic type starts with. -/
def zero? (name : String) : Option String := (primitives.get? name).bind (·.zero)

/-- Names with a different spelling in Java. -/
def identifier (name : String) : String := if name == "nil" then "null" else name

/-- Go's integer types that a loop can count through. -/
def isInteger (name : String) : Bool :=
  ["int", "int8", "int16", "int32", "int64", "uint", "uint8", "uint16", "uint32", "uint64",
    "byte"].contains name

end GoToJava.Java
