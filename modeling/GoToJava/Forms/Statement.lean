import GoToJava.Forms.Expression

/-! How each kind of statement is written, given how its parts are written. -/

namespace GoToJava

open Go (Expr Stmt BinaryOp AssignOp BranchKind)
open Emit

/-- What an assignment changes. An element is kept with the whole it is part of. -/
structure Target where
  term : Term
  element : Option (Term × Term) := none

/-- A case of a switch. -/
structure CaseForm where
  values : List (Emit Unit)
  body : Emit Unit
  /-- Whether the body leaves the switch by itself. -/
  leaves : Bool

namespace Forms

/-! ## Declared variables -/

def declaredNow (style : Style) (name : String) (value : Expr) : Emit Unit := do
  match ← infer style value with
  | some type => setVar name type
  | none => pure ()

/-- Writes the type of a variable declared by its value, and binds the variable: to a guess until
all declarations are known. -/
def declare (name : String) (value : Expr) : Emit Unit := do
  setVar name ((← program).guessType (← read) value)
  defer (.declared name value .references) (declaredNow .references name value)

/-! ## Assignments -/

/-- The text between a target and the value it is assigned. -/
def assignToken : AssignOp → String
  | .assign | .define => " = "
  | .compound .andNot => " &= ~"
  | .compound op => " " ++ op.token ++ "= "

def stepToken (up : Bool) : String := if up then "++" else "--"

/-- An element of a map as it is before an update. -/
def mapGet (base index : Term) : Emit Unit := do
  base.write
  print ".get("
  index.write
  print ")"

def mapPut (base index : Term) (update : ElementUpdate Term) : Emit Unit := do
  base.write
  print ".put("
  index.write
  print ", "
  match update with
  | .set value => value.write
  | .compound op value =>
    mapGet base index
    print (" " ++ binaryToken op ++ " ")
    value.write
  | .step up =>
    mapGet base index
    print (if up then " + 1" else " - 1")
  print ")"

def arraySet (base index : Term) (update : ElementUpdate Term) : Emit Unit := do
  base.write
  print "["
  index.write
  print "]"
  match update with
  | .set value =>
    print (assignToken .assign)
    value.write
  | .compound op value =>
    print (assignToken (.compound op))
    value.write
  | .step up => print (stepToken up)

def elementUpdateNow (base index : Term) (update : ElementUpdate Term) : Emit Unit := do
  match ← sourceType base.source with
  | some (.mapType _ _) => mapPut base index update
  | _ => arraySet base index update
  endStatement

/-- The update of an element, as the type of the whole wants it. -/
def elementUpdate (base index : Term) (update : ElementUpdate Term) : Emit Unit :=
  defer (.elementUpdate base.source index.source (update.map (·.source)))
    (elementUpdateNow base index update)

/-- Further targets or results, which Java has no place for. -/
def extras (terms : List Term) : Emit Unit :=
  terms.forM fun t => do
    print " /* "
    t.write
    print " */"

/-- An assignment to a name or a field. Assigning to the blank name only keeps a call. -/
def plainAssign (target : Term) (extra : List Term) (op : AssignOp) (value : Term) :
    Emit Unit := do
  if target.source.ident? == some "_" && extra.isEmpty then
    if value.source.isCall then
      value.write
      endStatement
  else
    match op, target.source with
    | .define, .ident name =>
      declare name value.source
      print " "
    | _, _ => pure ()
    target.write
    extras extra
    print (assignToken op)
    value.write
    endStatement

def singleAssign (target : Target) (extra : List Term) (op : AssignOp) (value : Term) :
    Emit Unit :=
  match op, target.element with
  | .define, _ | _, none => plainAssign target.term extra op value
  | .assign, some (base, index) => elementUpdate base index (.set value)
  | .compound op, some (base, index) => elementUpdate base index (.compound op value)

/-- One assignment after the other. Between the parentheses of a loop they are a list, of which only
the first declares a type. -/
def pairAssigns (op : AssignOp) : List (Target × Term) → Emit Unit
  | [] => pure ()
  | (target, value) :: rest => do
    singleAssign target [] op value
    rest.forM fun (target, value) => do
      if (← read).bare then
        print ", "
        singleAssign target [] (if op = .define then .assign else op) value
      else singleAssign target [] op value

def assign (targets : List Target) (op : AssignOp) (values : List Term) : Emit Unit :=
  match targets, values with
  | target :: extra, value :: _ =>
    if extra.isEmpty || targets.length != values.length then
      singleAssign target (extra.map (·.term)) op value
    else pairAssigns op (targets.zip values)
  | _, _ => pure ()

def incDec (target : Target) (up : Bool) : Emit Unit :=
  match target.element with
  | some (base, index) => elementUpdate base index (.step up)
  | none => do
    target.term.write
    print (stepToken up)
    endStatement

/-! ## Branches -/

/-- A case of a Java switch falls into the next one unless it leaves, so there is nothing to write
for `fallthrough`. -/
def branch (kind : BranchKind) (label : Option String) : Emit Unit :=
  match kind with
  | .break => jump "break"
  | .continue => jump "continue"
  | .goto => println ("// goto " ++ label.getD "")
  | .fallthrough => pure ()
where
  jump (keyword : String) : Emit Unit := do
    print keyword
    match label with
    | some label =>
      print " "
      print label
    | none => pure ()
    endStatement

/-- The name of a callee in a comment. -/
def calleeName : Expr → String
  | .ident name => name
  | .selector base field => calleeName base ++ "." ++ field
  | .paren e => calleeName e
  | .star e => calleeName e
  | _ => "call"

/-- Java has nothing like a deferred call, so that only a comment is left. -/
def deferredCall (call : Expr) : Emit Unit :=
  let callee := match call with
    | .call (.funcLit _ _) _ _ => "func literal"
    | .call callee _ _ => calleeName callee
    | e => calleeName e
  println ("// defer " ++ callee)

def checkConformance (value declared : Expr) : Emit Unit := do
  let (_, inferred) ← inspect (infer .atOnce value)
  let (_, interface) ← inspect (writeType .atOnce declared)
  let p ← program
  if inferred == interface || !p.interfaces.contains interface then return
  match p.classIndex.get? inferred with
  | none => return
  | some id =>
    let cls := p.classAt id
    if cls.interfaces.contains interface then return
    modifyProgram (·.modifyClass id fun c =>
      { c with interfaces := c.interfaces.insert interface })
    let place := { cls.implementsAt.place with unit := cls.unit }
    let cursor := { cls.implementsAt with place }
    elsewhere cursor do
      print (if cls.interfaces.isEmpty then " implements " else ", ")
      print interface
      refer interface

/-- A return statement. The class of the returned value comes to implement the interface that the
function declares. -/
def returns (values : List Term) : Emit Unit := do
  print "return"
  match values with
  | [] => pure ()
  | first :: rest =>
    print " "
    first.write
    extras rest
    let place ← read
    match place.result with
    | some declared =>
      unless place.scratch do
        defer (.conformance first.source declared) (checkConformance first.source declared)
    | none => pure ()
  endStatement

/-! ## Switches -/

/-- Whether a case body leaves the switch by itself. -/
def leavesCase (body : List Stmt) : Bool :=
  match body.getLast? with
  | some (.return _) | some (.branch _ _) => true
  | some (.expr (.call (.ident "panic") _ _)) => true
  | _ => false

def switch (tag : Emit Unit) (cases : List CaseForm) : Emit Unit := do
  print "switch ("
  tag
  println ") \x7b"
  cases.forM fun c => do
    if c.values.isEmpty then println "default:"
    c.values.forM fun value => do
      print "case "
      value
      println ":"
    indented do
      c.body
      unless c.leaves do println "break;"
  println "\x7d"

/-- A switch without a tag, as a chain of conditions. -/
def conditions (cases : List CaseForm) : Emit Unit := do
  let conditional := cases.filter (!·.values.isEmpty)
  let default_ := cases.find? (·.values.isEmpty)
  let conditionCase (opening : String) (c : CaseForm) : Emit Unit := do
    print opening
    separated " || " c.values
    print ")"
    block c.body
  match conditional with
  | [] => pure ()
  | first :: rest =>
    conditionCase "if (" first
    rest.forM (conditionCase " else if (")
  match default_ with
  | none => pure ()
  | some d =>
    if conditional.isEmpty then
      println "\x7b"
      blockLines d.body
    else
      print " else"
      block d.body
  unless cases.isEmpty do println ""

/-! ## Loops -/

def forLoop (init cond post : Option (Emit Unit)) (body : Emit Unit) : Emit Unit := do
  print "for ("
  bare do
    init.getD (pure ())
    print "; "
    cond.getD (pure ())
    print "; "
    post.getD (pure ())
    print ")"
  block body
  println ""

def bind (name : Option String) (type : Expr) : Emit Unit :=
  match name with
  | some name => setVar name type
  | none => pure ()

/-- A loop that counts from zero up to the limit between `before` and `after`. -/
def counter (name : String) (limit : Emit Unit) : Emit Unit := do
  print ("for (int " ++ name ++ " = 0; " ++ name ++ " < ")
  limit
  print ("; " ++ name ++ "++)")

/-- A loop over values, each of which the variable stands for. -/
def forEach (type : Emit Unit) (name : String) (values : Emit Unit) : Emit Unit := do
  print "for ("
  type
  print " "
  print name
  print " : "
  values
  print ")"

def rangeHeaderNow (loop : RangeLoop) (iterable : Emit Unit) : Emit Unit := do
  let values (suffix : String) : Emit Unit := do
    iterable
    print suffix
  let element := loop.value.getD "ignored"
  match ← sourceType loop.iterable with
  | some (.mapType key value) =>
    print "for ("
    writeType { entry := true, direct := true } (.mapType key value)
    print " : "
    values ".entrySet())"
    bind loop.key key
    bind loop.value value
  | some (.arrayType _ e) | some (.ellipsis e) =>
    match loop.key with
    | some key =>
      counter key (values ".length")
      setVar key (.ident "int")
    | none => forEach (writeType .atOnce e) element iterable
    bind loop.value e
  | some (.ident "string") =>
    match loop.key with
    | some key =>
      counter key (values ".length()")
      setVar key (.ident "int")
    | none => forEach (print "char") element (values ".toCharArray()")
    bind loop.value (.ident "rune")
  | some (.ident name) =>
    if Java.isInteger name then
      counter (loop.key.getD "i") iterable
      bind loop.key (.ident "int")
    else unknown
  | _ => unknown
where
  unknown : Emit Unit :=
    forEach (print "Object") ((loop.value <|> loop.key).getD "ignored") iterable

def rangeBindingsNow (loop : RangeLoop) (iterable : Emit Unit) : Emit Unit := do
  let entryPart (name : Option String) (type : Expr) (part : String) : Emit Unit :=
    match name with
    | some name => do
      writeType .atOnce type
      println (" " ++ name ++ " = entry." ++ part ++ "();")
    | none => pure ()
  match ← sourceType loop.iterable with
  | some (.mapType key value) =>
    entryPart loop.key key "getKey"
    entryPart loop.value value "getValue"
  | some (.arrayType _ e) | some (.ellipsis e) =>
    match loop.key, loop.value with
    | some key, some value =>
      writeType .atOnce e
      print (" " ++ value ++ " = ")
      iterable
      println ("[" ++ key ++ "];")
    | _, _ => pure ()
  | some (.ident "string") =>
    match loop.key, loop.value with
    | some key, some value =>
      print ("char " ++ value ++ " = ")
      iterable
      println (".charAt(" ++ key ++ ");")
    | _, _ => pure ()
  | _ => pure ()

/-- The name of a loop's variable. -/
def loopName (e : Option Expr) : Option String := (e.bind Expr.ident?).filter (· ≠ "_")

/-- A loop over a value. Its variables have provisional types until its header is written. -/
def rangeLoop (key value : Option Expr) (iterable : Term) (body : Emit Unit) : Emit Unit := do
  let loop : RangeLoop := ⟨loopName key, loopName value, iterable.source⟩
  bind loop.key (.ident "int")
  bind loop.value (.index iterable.source (.intLit "0"))
  defer (.rangeHeader loop) (rangeHeaderNow loop iterable.write)
  block do
    defer (.rangeBindings loop) (rangeBindingsNow loop iterable.write)
    body
  println ""

end Forms

end GoToJava
