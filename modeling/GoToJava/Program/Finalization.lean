import GoToJava.Program.Discovery

/-!
Finalization. All declarations are known, so methods without a class become functions, what was put
off is written, and each unit gets its imports.
-/

namespace GoToJava

open Emit

namespace Program

/-- Fills a hole: first the holes inside it, then its own task writes its text, then the holes that
the task has left. -/
def fill : Nat → Program → Nat → Program
  | 0, p, _ => p
  | depth + 1, p, id =>
    let hole := p.drafts.hole id
    if hole.resolved then p
    else
      let p := (p.drafts.draft hole.child).holes.foldl (fill depth) p
      let before := (p.drafts.draft hole.child).holes.size
      let (task, drafts) := p.drafts.resolve id
      let p := { p with drafts }
      let p := match task with
        | some (some pending) => (p.emit pending.cursor (Conversion.run release pending.task)).2
        | _ => p
      let after := (p.drafts.draft hole.child).holes
      (after.extract before after.size).foldl (fill depth) p
where
  /-- No method waits any longer. -/
  release : Release := Conversion.releaseAt 0

/-- Fills all holes of a unit. Holes are nested at most as deep as there are drafts. -/
def fillUnit (p : Program) (id : Nat) : Program :=
  let unit := p.unit id
  if unit.library then p
  else (p.drafts.draft unit.root).holes.foldl (fill p.drafts.next) p

/-- The part of a name before its last dot. -/
def packageOf? (qualified : String) : Option String :=
  match qualified.toList.reverse.dropWhile (· ≠ '.') with
  | _ :: package => some (String.ofList package.reverse)
  | [] => none

/-- The classes a unit has to import: those it needs by their full names, and those of types it
names, except for classes of its own package. -/
def importsOf (p : Program) (unit : CompilationUnit) : List String :=
  let classes := unit.referenced.names.filterMap fun name =>
    (p.typeUnits.get? name).map fun id => (p.unit id).qualifiedName
  (classes.foldl NameSet.insert unit.imports).names.filter fun qualified =>
    match packageOf? qualified with
    | some package => package != unit.javaPackage
    | none => false

/-- Writes the import lines of a unit. -/
def writeImports (p : Program) (id : Nat) : Program :=
  let unit := p.unit id
  match unit.library, unit.importsAt with
  | false, some draft =>
    let names := p.importsOf unit
    (p.emit ⟨{ unit.start id with draft }, true⟩ do
      names.forM fun name => println ("import " ++ name ++ ";")
      unless names.isEmpty do println "").2
  | _, _ => p

/-- Writes the methods whose types have no class. -/
def releaseAll (p : Program) : Program :=
  p.parked.foldl (fun p m => (p.emit m.cursor (Conversion.staticMethod m.decl)).2)
    { p with parked := [] }

/-- Writes all that was put off. -/
def settle (p : Program) : Program :=
  let p := { p.releaseAll with phase := .finalization }
  let p := (List.range p.units.size).foldl fillUnit p
  (List.range p.units.size).foldl writeImports p

/-- Makes a program final. Doing it again changes nothing. -/
def finalize : Session Unit := do
  match (← get).phase with
  | .discovery => modify settle
  | .finalization => return
  | .flattened => throw .alreadyFlattened

end Program

end GoToJava
