import GoToJava.Forms.Statement
import GoToJava.Program.Units

/-! How declarations are written, given how the bodies and values in them are written. -/

namespace GoToJava

open Go (Expr Field Signature FuncDecl GenKind isExported title)
open Emit

/-- One line of a declaration, with the terms of its values. -/
inductive SpecForm where
  | value (names : List String) (type : Option Expr) (values : List Term)
  | type (name : String) (type : Expr) (isAlias : Bool)

/-- Writes a method that waited for its class. -/
abbrev Release := Nat → FuncDecl → Emit Unit

namespace Forms

/-- What may see a declaration. The main function is always public. -/
def access (name : String) : Emit Unit :=
  print (if isExported name || name == "main" then "public " else "protected ")

/-! ## Functions -/

/-- The parameters of a signature in the order they are written; the ones without a name are
numbered. -/
def params (fields : List Field) : List (String × Expr) :=
  fields.foldl (fun ps f =>
    let names := if f.names.isEmpty then ["arg" ++ toString ps.length] else f.names
    ps ++ names.map fun n => (n, f.type)) []

/-- Notes the first result of a function for inference. -/
def noteResult (name : String) (result : Expr) : Emit Unit :=
  modifyUnit fun u =>
    { u with
      funcs := u.funcs.add name result
      symbols := if isExported name then u.symbols.addFunc name result else u.symbols }

/-- The signature of a function, whose parameters are bound in `scope`. The receiver, if it is
given, is the first parameter. -/
def signature (name : String) (sig : Signature) (receiver : Option Field) (scope : Nat) :
    Emit Unit := do
  match sig.results with
  | [] => print "void"
  | first :: rest =>
    writeType .references first.type
    noteResult name first.type
    rest.forM fun extra => do
      print " /* "
      writeType .references extra.type
      print " */"
  print " "
  print name
  print "("
  let ps := params (receiver.toList ++ sig.params)
  separated ", " (ps.map fun (param, type) => do
    writeType .references type
    print " "
    print param
    modifyProgram fun p => { p with scopes := p.scopes.setVar scope param type })
  if name == "main" && ps.isEmpty then print "String[] args"
  print ")"

/-- The body of a function and an empty line. -/
def body (scope : Nat) (receiver : Option Receiver) (sig : Signature) (stmts : Emit Unit) :
    Emit Unit := do
  withReader ({ · with scope, receiver, result := sig.firstResult }) (block stmts)
  println ""
  println ""

/-- The scope of the package around this place. -/
def packageScope : Emit Nat := return ((← program).unit (← read).unit).scope

/-- A function, or a method whose receiver is an ordinary parameter. -/
def function (decl : FuncDecl) (receiver : Option Field) (stmts : Emit Unit) : Emit Unit := do
  let scope ← newScope (← packageScope) []
  access decl.name
  print "static "
  signature decl.name decl.sig receiver scope
  body scope none decl.sig stmts

/-- A method of a class. Its receiver goes by a name unless the name is blank. -/
def method (decl : FuncDecl) (cls : Nat) (stmts : Emit Unit) : Emit Unit := do
  elsewhere ((← program).classAt cls).functionsAt do
    let named := decl.receiver.bind fun f =>
      (f.names.head?.filter (· ≠ "_")).map fun name => (name, f.type)
    let scope ← newScope (← packageScope) named.toList
    match decl.sig.firstResult with
    | some result => modifyProgram (·.modifyClass cls fun c =>
        { c with methods := c.methods.add decl.name result })
    | none => pure ()
    access decl.name
    signature decl.name decl.sig none scope
    body scope (named.map fun (name, _) => ⟨name, cls⟩) decl.sig stmts

/-- The class whose method a receiver makes. -/
def receiverClass (type : Expr) : String :=
  match type.stripPointer with
  | .ident name => title name
  | _ => "Object"

/-! ## Types -/

/-- The class of an embedded type. -/
def embeddedClass? (type : Expr) : Option String :=
  match type.stripPointer with
  | .ident name => some (title name)
  | .selector _ field => some field
  | _ => none

/-- A field of a class. Arrays start empty. -/
def classField (name : String) (type : Expr) : Emit Unit := do
  access name
  writeType .references type
  print " "
  print name
  match type with
  | .arrayType _ _ =>
    print " = new "
    writeType {} type
    print "\x7b\x7d"
  | _ => pure ()
  endStatement

/-- The words before the name of a class or an interface. -/
def classWords (kind : String) : Emit Unit := do
  print "public "
  if 0 < (← read).tabs then print "static "
  print kind

/-- The end of a class or an interface. -/
def classEnd : Emit Unit := do
  println "\x7d"
  if 0 < (← read).tabs then println ""

/-- What a class extends and implements: the first embedded type, and the others. -/
def embeddedTypes (types : List Expr) : Emit Unit :=
  match types with
  | [] => pure ()
  | first :: rest => do
    print " extends "
    writeType {} first
    match rest with
    | [] => pure ()
    | second :: rest =>
      print " implements "
      writeType {} second
      rest.forM fun type => do
        print ", "
        writeType {} type

/-- The constructor that takes all fields. -/
def constructor (name : String) (fields : List (String × Expr)) : Emit Unit := do
  bare do
    print "public "
    print name
    print "("
    separated ", " (fields.map fun (field, type) => do
      writeType .references type
      print " "
      print field)
  println ") \x7b"
  indented (fields.forM fun (field, _) => println ("this." ++ field ++ " = " ++ field ++ ";"))
  println "\x7d"
  println ""

/-- The fields and constructors of a class, and a place for its methods. -/
def classBody (name : String) (fields : List (String × Expr)) : Emit Cursor := do
  fields.forM fun (field, type) => classField field type
  println ""
  print "public "
  print name
  println "() \x7b"
  println "\x7d"
  println ""
  unless fields.isEmpty do constructor name fields
  reserveBlock none

/-- Makes a class known, and writes the methods that waited for it. -/
def addClass (release : Release) (cls : JavaClass) : Emit Unit := do
  let p ← program
  let id := p.classes.size
  let ready := p.parked.filter (·.cls == cls.name)
  modifyProgram fun p =>
    { p with
      classes := p.classes.push cls
      classIndex := p.classIndex.set cls.name id
      parked := p.parked.filter (·.cls != cls.name) }
  ready.forM fun m => release id m.decl

/-- The class of a struct. -/
def struct (release : Release) (name : String) (fields : List Field) : Emit Unit := do
  let embedded := (fields.filter (·.isEmbedded)).map (·.type)
  let named := fields.flatMap fun f => f.names.map fun n => (n, f.type)
  classWords "class "
  print name
  embeddedTypes embedded
  let implementsAt ← reserveInline none
  println " \x7b"
  owe
  let functionsAt ← withReader Place.deeper (classBody name named)
  owe
  classEnd
  addClass release
    { name, unit := (← read).unit, implementsAt, functionsAt
      interfaces := ((embedded.drop 1).filterMap embeddedClass?).foldl NameSet.insert {}
      fields := named.foldl (fun t (field, type) => t.set field type) {} }

/-- The methods an interface asks for. -/
def interfaceMethods (fields : List Field) : Emit Unit :=
  fields.forM fun f =>
    match f.type with
    | .funcType sig => f.names.forM fun name => do
      let scope ← newScope (← packageScope) []
      signature name sig none scope
      endStatement
    | _ => pure ()

def interface (name : String) (fields : List Field) : Emit Unit := do
  modifyProgram fun p => { p with interfaces := p.interfaces.insert name }
  classWords "interface "
  print name
  match (fields.filter (·.isEmbedded)).map (·.type) with
  | [] => pure ()
  | types =>
    print " extends "
    separated ", " (types.map (writeType {}))
  println " \x7b"
  indented (interfaceMethods (fields.filter (!·.isEmbedded)))
  classEnd

/-- Writes a class where it belongs: exported types have units of their own. -/
def whereDeclared (name : String) (text : Emit Unit) : Emit Unit := do
  if isExported name then
    let place ← read
    let (cursor, p) := (← program).typeUnit place (title name)
    modifyProgram fun _ => p
    elsewhere cursor text
  else text

/-- A type declaration. A type that is neither a struct nor an interface is only remembered. -/
def typeSpec (release : Release) (name : String) (type : Expr) (isAlias : Bool) : Emit Unit :=
  match isAlias, type with
  | false, .structType fields => whereDeclared name (struct release (title name) fields)
  | false, .interfaceType fields => whereDeclared name (interface (title name) fields)
  | _, _ => modifyProgram fun p => { p with typeNames := p.typeNames.set (title name) type }

/-! ## Variables and constants -/

/-- The initial value of a variable declared without one. A variable of a package has Java's own. -/
def initializer (local_ : Bool) (type : Expr) : Emit Unit := do
  let p ← program
  match p.unalias type with
  | .arrayType _ _ =>
    print " = new "
    writeType {} type
    print "\x7b\x7d"
  | .mapType _ _ =>
    need .hashMap
    print " = new HashMap<>()"
  | underlying =>
    if local_ then
      match underlying, underlying.stripPointer with
      | .ident name, _ =>
        match Java.zero? name with
        | some zero =>
          print " = "
          print zero
        | none =>
          if p.classIndex.contains (title name) then
            print " = new "
            print (title name)
            print "()"
          else print " = null"
      | _, .ident _ => print " = null"
      | _, _ => pure ()

/-- The type and the values that a constant repeats when it has none. -/
structure ConstGroup where
  type : Option Expr := none
  values : List Term := []

/-- One name of a declaration, with its type and its value. -/
def variable_ (isConst local_ : Bool) (type : Option Expr) (name : String) (value : Option Term) :
    Emit Unit := do
  unless local_ do
    access name
    print "static "
  if isConst then print "final "
  match type, value with
  | some type, _ =>
    writeType .references type
    setVar name type
    unless local_ do modifyUnit fun u => { u with symbols := u.symbols.addType name type }
  | none, some value =>
    unless local_ do modifyUnit fun u => { u with symbols := u.symbols.addValue name value.source }
    declare name value.source
  | none, none => print "Object"
  print " "
  print name
  match value, type with
  | some value, _ =>
    print " = "
    value.write
  | none, some type => initializer local_ type
  | none, none => pure ()
  endStatement

/-- The names of one line with the values at their positions. Blank names are left out. -/
def variableGroup (isConst local_ : Bool) (names : List String) (type : Option Expr)
    (values : List Term) : Emit Unit :=
  names.zipIdx.forM fun (name, position) =>
    if name == "_" then pure () else variable_ isConst local_ type name values[position]?

/-- The lines of a declaration of variables or constants. The constants of a group are numbered. -/
def valueSpecs (isConst local_ : Bool) : Nat → ConstGroup → List SpecForm → Emit Unit
  | _, _, [] => pure ()
  | index, group, .type .. :: rest => valueSpecs isConst local_ (index + 1) group rest
  | index, group, .value names type values :: rest => do
    let repeats := isConst && values.isEmpty
    let type := if repeats then type <|> group.type else type
    let values := if repeats then group.values else values
    if isConst then modifyProgram fun p => { p with iota := some index }
    variableGroup isConst local_ names type values
    modifyProgram fun p => { p with iota := none }
    valueSpecs isConst local_ (index + 1) (if isConst then ⟨type, values⟩ else group) rest

/-- A declaration, of a function body or of a package. -/
def genDecl (release : Release) (local_ : Bool) (kind : GenKind) (specs : List SpecForm) :
    Emit Unit :=
  match kind with
  | .type => specs.forM fun
    | .type name type isAlias => typeSpec release name type isAlias
    | .value .. => pure ()
  | .var => valueSpecs false local_ 0 {} specs
  | .const => valueSpecs true local_ 0 {} specs

end Forms

end GoToJava
