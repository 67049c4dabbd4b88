import GoToJava.Program.Finalization

/-! Flattening: the text of each unit in one piece. -/

namespace GoToJava

/-- The Java text of one unit. -/
structure JavaSource where
  path : String
  package : String
  cls : String
  qualifiedName : String
  text : String
  deriving DecidableEq, Repr, Inhabited

namespace Program

/-- Ends the class of a package and joins the text of a unit. -/
def flattenUnit (id : Nat) : Session JavaSource := do
  let p ← get
  let unit := p.unit id
  let p := if unit.isPackage then p.write unit.root "\x7d\n" else p
  match p.drafts.join unit.root with
  | .error _ => throw .alreadyFlattened
  | .ok (text, drafts) =>
    set { p with drafts }
    return {
      path := unit.path
      package := unit.javaPackage
      cls := unit.name
      qualifiedName := unit.qualifiedName
      text }

/-- The Java texts of a program, which is made final before. They can be had once. -/
def flatten : Session (List JavaSource) := do
  finalize
  modify fun p => { p with phase := .flattened }
  let p ← get
  ((List.range p.units.size).filter fun id => !(p.unit id).library).mapM flattenUnit

/-- The full name of the class of an exported type. -/
def className? (p : Program) (name : String) : Option String :=
  (p.typeUnits.get? name).map fun id => (p.unit id).qualifiedName

end Program

/-- The Java texts of some Go files, given with their paths. -/
def toJava (libraries : Libraries) (files : List SourceFile) :
    Except ProgramError (List JavaSource) :=
  let run : Session (List JavaSource) := do
    files.forM fun f => Program.discover libraries f.path f.text
    Program.flatten
  (run.run.run {}).1

end GoToJava
