import GoToJava.Emit

/-!
New compilation units. A package has one unit with its class; an exported type has a unit of its
own, unless it is named like its package.
-/

namespace GoToJava

open Emit

namespace Program

/-- Adds a unit, which gets the next number. A unit of a type shares the variables of its
package. -/
def newUnit (p : Program) (dir name : String) (library : Bool) (package : Option Nat) : Program :=
  let id := p.units.size
  let unit : CompilationUnit :=
    { dir, name, isPackage := package.isNone, library, root := p.drafts.next,
      packageUnit := package.getD id,
      scope := (package.map fun u => (p.unit u).scope).getD p.scopes.next }
  { p with
    drafts := p.drafts.new
    scopes := if package.isNone then p.scopes.new none else p.scopes
    units := p.units.push unit
    unitIndex := p.unitIndex.set unit.key id }

/-- The package line and a place for the imports. -/
def header (unit : CompilationUnit) : Emit Cursor := do
  unless unit.dir.isEmpty do
    println ("package " ++ unit.javaPackage ++ ";")
    println ""
  reserveBlock none

/-- Writes at the start of a unit, after its header. -/
def startUnit (p : Program) (id : Nat) (text : Emit Unit) : Program :=
  let unit := p.unit id
  let (imports, p) := p.emit ⟨unit.start id, true⟩ do
    let imports ← header unit
    text
    return imports
  p.modifyUnit id fun u => { u with importsAt := some imports.place.draft }

/-- The unit of a package, which is started with the package's class on first use. -/
def packageUnit (p : Program) (dir name : String) (library : Bool) : Nat × Program :=
  match p.unitIndex.get? (unitKey dir name) with
  | some id => (id, p)
  | none =>
    let id := p.units.size
    let p := p.newUnit dir name library none
    (id, if library then p else p.startUnit id (println ("public class " ++ name ++ " \x7b")))

/-- Where an exported type of the package around a place is written. -/
def typeUnit (p : Program) (place : Place) (name : String) : Cursor × Program :=
  let package := (p.unit place.unit).packageUnit
  let dir := (p.unit package).dir
  match p.unitIndex.get? (unitKey dir name) with
  | some id =>
    let unit := p.unit id
    (⟨{ unit.start id with tabs := if unit.isPackage then 1 else 0 }, true⟩, p)
  | none =>
    let id := p.units.size
    let p := (p.newUnit dir name false (some package)).startUnit id (pure ())
    (⟨(p.unit id).start id, true⟩, { p with typeUnits := p.typeUnits.set name id })

end Program

end GoToJava
