import GoToJava.Inference

/-!
How each kind of expression is written, given how its parts are written. Text that depends on the
type of a part is put off until all declarations are known.
-/

namespace GoToJava

open Go (Expr LitKind UnaryOp BinaryOp Signature title)
open Emit

/-- An expression and the action that writes it. -/
structure Term where
  source : Expr
  write : Emit Unit

/-- An element of a composite literal. What writes a part is told the type of an element, which the
part may leave out. -/
inductive Element where
  | plain (value : Option Expr → Emit Unit)
  | keyed (key value : Option Expr → Emit Unit)

namespace Forms

/-! ## Names and literals -/

def ident (name : String) : Emit Unit := do
  let p ← program
  let place ← read
  if (place.receiver.map (·.name)) == some name then print "this"
  else
    match p.iota with
    | some n => if name == "iota" then print (toString n) else plain p place
    | none => plain p place
where
  /-- The class of a package, or a name. -/
  plain (p : Program) (place : Place) : Emit Unit := do
    match p.importName place (title name) with
    | some i =>
      if p.isVar place name then print (Java.identifier name)
      else
        match i.qualified with
        | some qualified => importClass qualified
        | none => pure ()
        print (title name)
    | none => print (Java.identifier name)

def isBackquote (c : Char) : Bool := c == '\x60'

/-- A character of a raw string in a string literal. Each line has a literal of its own. -/
def rawChar : Char → List Char
  | '\\' => ['\\', '\\']
  | '\"' => ['\\', '\"']
  | '\r' => []
  | '\n' => ['\\', 'n', '\"', '+', '\n', '\"']
  | c => [c]

/-- A raw string as string literals. -/
def rawString (text : String) : String :=
  let inner := ((text.toList.dropWhile isBackquote).reverse.dropWhile isBackquote).reverse
  "\"" ++ String.ofList (inner.flatMap rawChar) ++ "\""

/-- Octal literals start with a bare zero in Java. -/
def intLit (text : String) : String :=
  match text.toList with
  | '0' :: 'o' :: rest | '0' :: 'O' :: rest => String.ofList ('0' :: rest)
  | _ => text

def literal (kind : LitKind) (text : String) : Emit Unit :=
  match kind with
  | .raw => print (rawString text)
  | .int => print (intLit text)
  | _ => print text

/-! ## Operators -/

def unaryToken : UnaryOp → String
  | .pos => "+"
  | .neg => "-"
  | .not => "!"
  | .bitNot => "~"
  | .addr | .recv => ""

def binaryToken : BinaryOp → String
  | .andNot => "& ~"
  | op => op.token

def binary (left : Emit Unit) (op : BinaryOp) (right : Emit Unit) : Emit Unit := do
  left
  print (" " ++ binaryToken op ++ " ")
  right

/-- A cast in parentheses. -/
def cast (style : Style) (type : Expr) (value : Emit Unit) : Emit Unit := do
  print "(("
  writeType style type
  print ") "
  value
  print ")"

/-! ## Composite literals -/

/-- The values of some elements. -/
def values (implied : Option Expr) (elements : List Element) : Emit Unit :=
  separated ", " (elements.map fun
    | .plain value => value implied
    | .keyed _ value => value implied)

/-- The entries of a map. -/
def entries (key value : Expr) (elements : List Element) : Emit Unit :=
  separated ", " (elements.map fun
    | .plain e => e none
    | .keyed k v => do
      print "Map.entry("
      k (some key)
      print ", "
      v (some value)
      print ")")

/-- A composite literal. `implied` is the type of a literal that leaves its own out. -/
def composite (type implied : Option Expr) (elements : List Element) : Emit Unit := do
  match type <|> implied with
  | none =>
    print "\x7b"
    values none elements
    print "\x7d"
  | some type =>
    let type := type.stripPointer
    match (← program).unalias type with
    | .arrayType _ e =>
      print "new "
      writeType .references type
      print "\x7b"
      values (some e) elements
      print "\x7d"
    | .mapType key value =>
      print "new "
      writeType .constructed type
      print "("
      unless elements.isEmpty do
        need .map
        print "Map.ofEntries("
        entries key value elements
        print ")"
      print ")"
    | _ =>
      print "new "
      writeType .constructed type
      print "("
      values none elements
      print ")"

/-! ## Blocks and functions -/

/-- The lines of a block and the brace that ends it. -/
def blockLines (body : Emit Unit) : Emit Unit := do
  indented body
  print "\x7d"

def block (body : Emit Unit) : Emit Unit := do
  println " \x7b"
  blockLines body

/-- The parameters of a function with their types. -/
def paramsOf (sig : Signature) : List (String × Expr) :=
  sig.params.flatMap fun f => f.names.map fun n => (n, f.type)

/-- A function literal, which has a scope of its own below the scope it stands in. -/
def funcLit (sig : Signature) (body : Emit Unit) : Emit Unit := do
  let params := paramsOf sig
  let scope ← newScope (← read).scope params
  print ("(" ++ ", ".intercalate (params.map (·.1)) ++ ") ->")
  withReader ({ · with scope, result := sig.firstResult }) (block body)

/-! ## Elements, parts and lengths -/

def elementNow (base index : Term) : Emit Unit := do
  let (opening, closing) := match ← sourceType base.source with
    | some (.mapType _ _) => (".get(", ")")
    | some (.ident "string") => (".charAt(", ")")
    | _ => ("[", "]")
  base.write
  print opening
  index.write
  print closing

/-- An element, as the type of the whole wants it: `m.get(k)`, `s.charAt(i)` or `a[i]`. -/
def element (base index : Term) : Emit Unit :=
  defer (.element base.source index.source) (elementNow base index)

def sliceNow (base : Term) (low high : Option Term) : Emit Unit := do
  let from_ : Emit Unit := match low with
    | some low => low.write
    | none => print "0"
  match ← sourceType base.source with
  | some (.ident "string") =>
    base.write
    print ".substring("
    from_
    match high with
    | some high =>
      print ", "
      high.write
    | none => pure ()
    print ")"
  | _ =>
    need .arrays
    print "Arrays.copyOfRange("
    base.write
    print ", "
    from_
    print ", "
    match high with
    | some high => high.write
    | none =>
      base.write
      print ".length"
    print ")"

/-- A part of a string or of an array. -/
def slice (base : Term) (low high : Option Term) : Emit Unit :=
  defer (.slice base.source (low.map (·.source)) (high.map (·.source))) (sliceNow base low high)

def lengthNow (value : Term) : Emit Unit := do
  let suffix := match ← sourceType value.source with
    | some (.mapType _ _) => ".size()"
    | some (.ident "string") => ".length()"
    | _ => ".length"
  value.write
  print suffix

def length (value : Term) : Emit Unit := defer (.length value.source) (lengthNow value)

/-! ## Calls -/

/-- The conversion of a value to a type: from the table, a cast, or nothing when the types agree. -/
def conversion (type : Expr) (value : Term) : Emit Unit := do
  let (_, target) ← inspect (writeType .atOnce type)
  let (_, source) ← inspect (infer .atOnce value.source)
  match Java.conversions.get? (source ++ "->" ++ target) with
  | some (.suffix text) =>
    value.write
    print text
  | some (.wrap before after) =>
    print before
    value.write
    print after
  | none => if source == target then value.write else cast {} type value.write

/-- A new array, map or value. -/
def make (type : Expr) (size : Option Term) : Emit Unit := do
  match (← program).unalias type with
  | .mapType _ _ =>
    print "new "
    writeType .constructed type
    print "()"
  | .arrayType _ e =>
    print "new "
    writeType {} e
    print "["
    match size with
    | some size => size.write
    | none => print "0"
    print "]"
  | .chanType _ => print "null"
  | _ =>
    print "new "
    writeType {} type
    print "()"

/-- Calls of functions that Go declares beforehand and that have a form of their own. -/
def builtin? (name : String) (args : List Term) : Option (Emit Unit) :=
  match name, args with
  | "len", [value] | "cap", [value] => some (length value)
  | "make", type :: rest => some (make type.source rest.head?)
  | "new", [type] => some do
    print "new "
    writeType .constructed type.source
    print "()"
  | "delete", [map, key] => some do
    map.write
    print ".remove("
    key.write
    print ")"
  | "panic", [value] => some do
    print "throw new RuntimeException(String.valueOf("
    value.write
    print "))"
  | _, _ => none

/-- The name a callee has in the table of calls, unless a variable hides it. -/
def tableName? (p : Program) (place : Place) : Expr → Option String
  | .ident name => some name
  | .selector (.ident package) name =>
    if p.isVar place package then none else some (package ++ "." ++ name)
  | _ => none

/-- The class of the package, before a call of one of its functions from another class. -/
def packageClass? (p : Program) (place : Place) : Expr → Option String
  | .ident name =>
    let package := (p.unit place.unit).packageUnit
    if package != place.unit && !p.isVar place name && (p.unit package).funcs.contains name then
      some (p.unit package).name
    else none
  | _ => none

def arguments (separator : String) (args : List Term) : Emit Unit := do
  print "("
  separated separator (args.map (·.write))
  print ")"

/-- A call that is neither a conversion nor built in. -/
def plainCall (callee : Term) (args : List Term) : Emit Unit := do
  let p ← program
  let place ← read
  match (tableName? p place callee.source).bind Java.calls.get? with
  | some form =>
    match form.needs with
    | some i => need i
    | none => pure ()
    print form.method
    arguments (form.separator.getD ", ") args
  | none =>
    match packageClass? p place callee.source with
    | some cls =>
      print cls
      print "."
    | none => pure ()
    callee.write
    arguments ", " args

/-- The form of a call of a name. -/
def namedCall? (p : Program) (place : Place) (callee : Expr) (args : List Term) :
    Option (Emit Unit) :=
  match callee with
  | .ident name => if p.isVar place name then none else builtin? name args
  | _ => none

def call (callee : Term) (args : List Term) : Emit Unit := do
  let p ← program
  let place ← read
  match args with
  | [value] =>
    if p.isTypeCallee place callee.source then conversion callee.source value
    else (namedCall? p place callee.source args).getD (plainCall callee args)
  | _ => (namedCall? p place callee.source args).getD (plainCall callee args)

end Forms

end GoToJava
