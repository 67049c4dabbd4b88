import GoToJava.Text.Uppercase

/-! Names of Go declarations. -/

namespace GoToJava.Go

/-- Names that start with an upper case letter can be used in other packages. -/
def isExported (name : String) : Bool :=
  match name.toList with
  | c :: _ => Text.isUppercase c
  | [] => false

/-- The name with its first letter in upper case. -/
def title (name : String) : String :=
  match name.toList with
  | c :: rest => String.ofList (Text.toUppercase c ++ rest)
  | [] => ""

end GoToJava.Go
