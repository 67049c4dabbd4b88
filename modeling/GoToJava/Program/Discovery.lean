import GoToJava.Conversion
import GoToJava.Program.Error

/-!
Discovery. The files of a program come one by one and in any order; each is written as far as its
own text allows. Imported libraries are read for the results of their functions and the types of
their variables.
-/

namespace GoToJava

open Go (Expr Decl File ImportSpec Spec isExported title)

/-- A source file of a library. -/
structure SourceFile where
  path : String
  text : String
  deriving DecidableEq, Repr, Inhabited

/-- The source files of libraries by their import paths. -/
abbrev Libraries := String → List SourceFile

/-- A step of a program's way to Java. What was done before an error stays done. -/
abbrev Session := ExceptT ProgramError (StateM Program)

/-- The last segment of a path. -/
def lastSegment (path : String) : String :=
  String.ofList (path.toList.reverse.takeWhile (· ≠ '/')).reverse

/-- The first segment of a path. -/
def firstSegment (path : String) : String := String.ofList (path.toList.takeWhile (· ≠ '/'))

/-- The path without `./` and slashes at its start. -/
def trimStart : List Char → List Char
  | '.' :: '/' :: rest => trimStart rest
  | cs => cs.dropWhile (· = '/')

/-- The directory of a file. -/
def parentDir (path : String) : String :=
  match (trimStart path.toList).reverse.dropWhile (· ≠ '/') with
  | _ :: dir => String.ofList dir.reverse
  | [] => ""

/-- The path with slashes for backslashes. -/
def slashed (path : String) : String := path.map fun c => if c = '\\' then '/' else c

namespace Symbols

/-- Adds what a library file declares in one line: the exported variables, by their types or else by
their values. -/
def addSpec (s : Symbols) : Spec → Symbols
  | .type .. => s
  | .value names type values =>
    (names.zipIdx.filter fun (name, _) => isExported name).foldl (fun s (name, position) =>
      match type, values[position]? with
      | some type, _ => s.addType name type
      | none, some value => s.addValue name value
      | none, none => s) s

end Symbols

/-- Adds the symbols of a declaration of a library file. -/
def CompilationUnit.addSymbols (u : CompilationUnit) : Decl → CompilationUnit
  | .func d =>
    match d.receiver, isExported d.name, d.sig.firstResult with
    | none, true, some result =>
      { u with symbols := u.symbols.addFunc d.name result, funcs := u.funcs.add d.name result }
    | _, _, _ => u
  | .gen d =>
    if d.kind = .type then u else { u with symbols := d.specs.foldl Symbols.addSpec u.symbols }

namespace Program

/-- Reads a source file. -/
def readFile (path source : String) : Session File :=
  match Go.read source with
  | .ok file => return file
  | .error cause => throw (.unreadable path cause)

/-- Packages that no other package can import. -/
def isImportable (package : String) : Bool := package != "main" && !package.endsWith "_test"

/-- The unit with the symbols of a library, which is read on first use. -/
def loadLibrary (libraries : Libraries) (path : String) : Session (Option Nat) := do
  match (← get).libraries.get? path with
  | some loaded => return loaded
  | none =>
    let mut loaded : Option Nat := none
    for source in libraries path do
      let file ← readFile source.path source.text
      if isImportable file.package then
        let (id, p) := (← get).packageUnit path (title file.package) true
        set (p.modifyUnit id fun u => file.decls.foldl CompilationUnit.addSymbols u)
        loaded := some id
    modify fun p => { p with libraries := p.libraries.set path loaded }
    return loaded

/-- Makes an imported package known to the files of a unit. Packages below the same first directory
belong to the program; all others are libraries. -/
def addImport (libraries : Libraries) (unit : Nat) (i : ImportSpec) : Session Unit := do
  unless i.name == some "_" || i.name == some "." do
    let dir := ((← get).unit unit).dir
    let cls := title (lastSegment i.path)
    let (name, target) ←
      if !dir.isEmpty && firstSegment i.path == firstSegment dir then
        pure (cls, (⟨unitKey i.path cls, some (dotted i.path ++ "." ++ cls)⟩ : ImportName))
      else
        match ← loadLibrary libraries i.path with
        | some id =>
          let u := (← get).unit id
          pure (u.name, ⟨u.key, none⟩)
        | none => pure (cls, ⟨unitKey i.path cls, none⟩)
    modify fun p => p.modifyUnit unit fun u =>
      { u with importNames := u.importNames.set ((i.name.map title).getD name) target }

/-- Files are only discovered before the program is final. -/
def checkDiscovery : Session Unit := do
  match (← get).phase with
  | .discovery => return
  | .finalization => throw .final
  | .flattened => throw .alreadyFlattened

/-- Discovers a file that was read already. The directory of its path becomes its Java package. -/
def discoverFile (libraries : Libraries) (path : String) (file : File) : Session Unit := do
  checkDiscovery
  let (unit, p) := (← get).packageUnit (parentDir (slashed path)) (title file.package) false
  set p
  file.imports.forM (addImport libraries unit)
  modify fun p =>
    let u := p.unit unit
    (p.emit ⟨{ u.start unit with tabs := 1 }, true⟩ (file.decls.forM Conversion.decl)).2

/-- Reads and discovers a file. -/
def discover (libraries : Libraries) (path source : String) : Session Unit := do
  checkDiscovery
  discoverFile libraries path (← readFile path source)

end Program

end GoToJava
