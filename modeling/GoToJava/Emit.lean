import GoToJava.Program.State

/-!
Writing. An `Emit` action writes text at a place of a program; what it may change is the program,
and whether the place owes its indentation.
-/

namespace GoToJava

/-- A program and whether indentation is owed before the next text. -/
structure Desk where
  program : Program
  owed : Bool
  deriving Inhabited

abbrev Emit := ReaderT Place (StateM Desk)

namespace Emit

variable {α : Type}

def program : Emit Program := return (← get).program

def modifyProgram (f : Program → Program) : Emit Unit :=
  modify fun desk => { desk with program := f desk.program }

/-- From now on indentation is owed before the next text. -/
def owe : Emit Unit := modify fun desk => { desk with owed := true }

/-- Writes text within a line. -/
def print (text : String) : Emit Unit := fun place desk =>
  let text := if desk.owed then "".pushn '\t' place.tabs ++ text else text
  ((), { program := desk.program.write place.draft text, owed := false })

/-- Writes text and ends the line. An empty line has no indentation. -/
def println (text : String) : Emit Unit := do
  unless text.isEmpty do print text
  let place ← read
  modifyProgram (·.write place.draft "\n")
  owe

/-- Ends a statement. -/
def endStatement : Emit Unit := do
  unless (← read).bare do println ";"

/-- Writes lines one level deeper. -/
def indented (lines : Emit Unit) : Emit Unit := do
  owe
  withReader Place.deeper lines
  owe

/-- Writes without semicolons. -/
def bare (text : Emit Unit) : Emit Unit := withReader ({ · with bare := true }) text

/-- Writes at another cursor. This place owes afterwards what it owed before. -/
def elsewhere (cursor : Cursor) (text : Emit α) : Emit α := fun _ desk =>
  let (a, after) := text cursor.place { desk with owed := cursor.owed }
  (a, { after with owed := desk.owed })

/-- Writes one text after the other with a separator between two of them. -/
def separated (separator : String) : List (Emit Unit) → Emit Unit
  | [] => pure ()
  | [text] => text
  | text :: rest => do
    text
    print separator
    separated separator rest

/-! ## Holes -/

/-- Leaves a hole, with a task that will fill it or without. -/
def reserve (owed : Bool) (task : Option Task) : Emit Cursor := do
  let place ← read
  let cursor : Cursor := ⟨{ place with draft := (← program).drafts.next }, owed⟩
  modifyProgram fun p =>
    { p with drafts := p.drafts.reserve place.draft (task.map (⟨cursor, ·⟩)) }
  return cursor

/-- Leaves a hole within a line. Indentation that is owed comes before it. -/
def reserveInline (task : Option Task) : Emit Cursor := do
  print ""
  reserve false task

/-- Leaves a hole for whole lines. -/
def reserveBlock (task : Option Task) : Emit Cursor := reserve true task

/-- Whether text that depends on declarations can be written at once. -/
def isEager (direct : Bool) : Emit Bool := do
  return (← program).phase != .discovery || direct || (← read).scratch

/-- Writes the text of a task at once if that can be done, and else leaves a hole for it. -/
def defer (task : Task) (now : Emit Unit) : Emit Unit := do
  if ← isEager task.direct then now
  else
    match task.placement with
    | .inline => discard (reserveInline (some task))
    | .statement =>
      discard (reserveInline (some task))
      unless (← read).bare do owe
    | .block => discard (reserveBlock (some task))

/-- Writes into a draft of its own, and gives the text back. -/
def inspect (text : Emit α) : Emit (α × String) := do
  let place ← read
  let draft := (← program).drafts.next
  modifyProgram fun p => { p with drafts := p.drafts.new }
  let cursor : Cursor := ⟨{ place with draft, tabs := 0, bare := true, scratch := true }, false⟩
  let a ← elsewhere cursor text
  return (a, (← program).drafts.text draft)

/-! ## Names -/

def isVar (name : String) : Emit Bool := return (← program).isVar (← read) name

/-- Binds a variable. -/
def setVar (name : String) (type : Go.Expr) : Emit Unit := do
  let place ← read
  modifyProgram fun p => { p with scopes := p.scopes.setVar place.scope name type }

/-- Opens a scope with some variables. -/
def newScope (parent : Nat) (vars : List (String × Go.Expr)) : Emit Nat := do
  let scope := (← program).scopes.next
  modifyProgram fun p =>
    let opened := p.scopes.new (some parent)
    { p with scopes := vars.foldl (fun s (name, type) => s.setVar scope name type) opened }
  return scope

def modifyUnit (f : CompilationUnit → CompilationUnit) : Emit Unit := do
  let place ← read
  modifyProgram (·.modifyUnit place.unit f)

/-- Imports a class by its full name. -/
def importClass (qualified : String) : Emit Unit :=
  modifyUnit fun u => { u with imports := u.imports.insert qualified }

def need (i : Java.Import) : Emit Unit := importClass i.qualified

/-- Notes that a class is named. -/
def refer (name : String) : Emit Unit :=
  modifyUnit fun u => { u with referenced := u.referenced.insert name }

end Emit

/-- Runs an action at a cursor. -/
def Program.emit {α : Type} (p : Program) (cursor : Cursor) (text : Emit α) : α × Program :=
  let (a, desk) := text cursor.place ⟨p, cursor.owed⟩
  (a, desk.program)

end GoToJava
