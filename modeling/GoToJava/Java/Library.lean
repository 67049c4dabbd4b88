import GoToJava.Table

/-! What stands in Java for calls, types and conversions of Go's standard library. -/

namespace GoToJava.Java

/-- A class that has to be imported where it is used. -/
structure Import where
  name : String
  qualified : String
  deriving DecidableEq, Repr, Inhabited

namespace Import

def date : Import := ⟨"Date", "java.util.Date"⟩
def arrayUtil : Import := ⟨"ArrayUtil", "org.go2j.util.ArrayUtil"⟩
def map : Import := ⟨"Map", "java.util.Map"⟩
def hashMap : Import := ⟨"HashMap", "java.util.HashMap"⟩
def arrays : Import := ⟨"Arrays", "java.util.Arrays"⟩
def function : Import := ⟨"Function", "java.util.function.Function"⟩

end Import

/-- What is called in Java, with the text between two arguments if it is not a comma, and the Go
type of the result. -/
structure CallForm where
  method : String
  needs : Option Import := none
  separator : Option String := none
  result : Option String := none
  deriving DecidableEq, Repr, Inhabited

/-- Calls by their Go names, such as `fmt.Println` and `append`. -/
def calls : Table CallForm := .ofList [
  ("fmt.Println", { method := "System.out.println", separator := some " + \" \" + " }),
  ("fmt.Print", { method := "System.out.print", separator := some " + " }),
  ("fmt.Printf", { method := "System.out.printf" }),
  ("fmt.Sprintf", { method := "String.format", result := some "string" }),
  ("fmt.Sprint", { method := "String.valueOf", result := some "string" }),
  ("time.Now", { method := "new Date", needs := some .date, result := some "time.Time" }),
  ("append", { method := "ArrayUtil.append", needs := some .arrayUtil }),
  ("errors.New", { method := "new Exception", result := some "error" }),
  ("strconv.Itoa", { method := "String.valueOf", result := some "string" }),
  ("println", { method := "System.err.println", separator := some " + \" \" + " })]

structure TypeForm where
  name : String
  needs : Option Import
  deriving DecidableEq, Repr, Inhabited

/-- Types of other packages by their Go names. -/
def types : Table TypeForm := .ofList [
  ("time.Time", ⟨"Date", some .date⟩),
  ("time.Duration", ⟨"long", none⟩)]

/-- The boxed form of a type's Java name. -/
def boxed : String → String
  | "long" => "Long"
  | "int" => "Integer"
  | "double" => "Double"
  | other => other

/-- How a value of one Java type becomes one of another. -/
inductive Conversion where
  | suffix (text : String)
  | wrap (before after : String)
  deriving DecidableEq, Repr, Inhabited

/-- Conversions by the Java types they go from and to. -/
def conversions : Table Conversion := .ofList [
  ("String->byte[]", .suffix ".getBytes()"),
  ("String->char[]", .suffix ".toCharArray()"),
  ("byte[]->String", .wrap "new String(" ")"),
  ("char[]->String", .wrap "new String(" ")"),
  ("char->String", .wrap "String.valueOf(" ")"),
  ("int->String", .wrap "String.valueOf((char) " ")")]

end GoToJava.Java
