import GoToJava.Forms.Declaration

/-!
Go syntax in Java. Conversion follows the syntax: the text of an expression, a statement or a
declaration is formed from the texts of its parts.
-/

namespace GoToJava

open Go (Expr Stmt Spec GenDecl CaseClause FuncDecl Decl)
open Emit

namespace Conversion

/-- An if statement that can follow `else` in the same line. -/
def continuesChain : Stmt → Bool
  | .ifElse none _ _ _ => true
  | _ => false

mutual

/-- Writes an expression. `implied` is the type of a composite literal that leaves its own out. -/
def expr (release : Release) (implied : Option Expr) : Expr → Emit Unit
  | .ident name => Forms.ident name
  | .lit kind text => Forms.literal kind text
  | .composite type es => Forms.composite type implied (elements release es)
  | .funcLit sig body => Forms.funcLit sig (stmts release body)
  | .paren e => do
    print "("
    expr release none e
    print ")"
  | .selector base field => do
    expr release none base
    print "."
    print field
  | .index base index =>
    Forms.element ⟨base, expr release none base⟩ ⟨index, expr release none index⟩
  | .slice base low high =>
    Forms.slice ⟨base, expr release none base⟩
      (match low with
        | some e => some ⟨e, expr release none e⟩
        | none => none)
      (match high with
        | some e => some ⟨e, expr release none e⟩
        | none => none)
  | .assert base (some type) => Forms.cast .references type (expr release none base)
  | .assert base none => expr release none base
  | .call callee args _ => Forms.call ⟨callee, expr release none callee⟩ (terms release args)
  | .star e => expr release none e
  | .unary .addr e => do
    print ""
    expr release implied e
  | .unary op e => do
    print (Forms.unaryToken op)
    expr release none e
  | .binary l op r => Forms.binary (expr release none l) op (expr release none r)
  | .keyValue _ value => expr release none value
  | .unsupported _ => print "null"
  | e => writeType .references e

def terms (release : Release) : List Expr → List Term
  | [] => []
  | e :: es => ⟨e, expr release none e⟩ :: terms release es

def elements (release : Release) : List Expr → List Element
  | [] => []
  | .keyValue k v :: es =>
    .keyed (fun implied => expr release implied k) (fun implied => expr release implied v) ::
      elements release es
  | e :: es => .plain (fun implied => expr release implied e) :: elements release es

/-- Writes a statement. In a chain of conditions, no line ends after an if statement. -/
def stmt (release : Release) (chained : Bool) : Stmt → Emit Unit
  | .decl d => genDecl release true d
  | .empty => pure ()
  | .labeled label s => do
    print label
    print ": "
    stmt release false s
  | .expr e => do
    expr release none e
    endStatement
  | .incDec e up => Forms.incDec ⟨⟨e, expr release none e⟩, elementOf release e⟩ up
  | .assign lhs op rhs => Forms.assign (targets release lhs) op (terms release rhs)
  | .go call => do
    print "new Thread(() ->"
    match call with
    | .call (.funcLit _ body) [] _ => Forms.block (stmts release body)
    | call =>
      print " "
      expr release none call
    print ").start()"
    endStatement
  | .defer call => Forms.deferredCall call
  | .return values => Forms.returns (terms release values)
  | .branch kind label => Forms.branch kind label
  | .block body => do
    println "\x7b"
    Forms.blockLines (stmts release body)
    println ""
  | .ifElse init cond body alternative => do
    match init with
    | some s => stmt release false s
    | none => pure ()
    print "if ("
    expr release none cond
    print ")"
    Forms.block (stmts release body)
    match alternative with
    | none => pure ()
    | some (.block body) =>
      print " else"
      Forms.block (stmts release body)
    | some s =>
      if continuesChain s then
        print " else "
        stmt release true s
      else
        print " else"
        Forms.block (stmt release false s)
    unless chained do println ""
  | .switch init tag cs => do
    match init with
    | some s => stmt release false s
    | none => pure ()
    match tag with
    | some e => Forms.switch (expr release none e) (cases release cs)
    | none => Forms.conditions (cases release cs)
  | .for init cond post body =>
    Forms.forLoop
      (match init with
        | some s => some (stmt release false s)
        | none => none)
      (match cond with
        | some e => some (expr release none e)
        | none => none)
      (match post with
        | some s => some (stmt release false s)
        | none => none)
      (stmts release body)
  | .range key value _ iterable body =>
    Forms.rangeLoop key value ⟨iterable, expr release none iterable⟩ (stmts release body)
  | .unsupported _ => pure ()

def stmts (release : Release) : List Stmt → Emit Unit
  | [] => pure ()
  | s :: ss => do
    stmt release false s
    stmts release ss

def cases (release : Release) : List CaseClause → List CaseForm
  | [] => []
  | .mk values body :: cs =>
    ⟨(terms release values).map (·.write), stmts release body, Forms.leavesCase body⟩ ::
      cases release cs

/-- The whole and the index of an element. -/
def elementOf (release : Release) : Expr → Option (Term × Term)
  | .index base index => some (⟨base, expr release none base⟩, ⟨index, expr release none index⟩)
  | _ => none

def targets (release : Release) : List Expr → List Target
  | [] => []
  | e :: es => ⟨⟨e, expr release none e⟩, elementOf release e⟩ :: targets release es

def genDecl (release : Release) (local_ : Bool) : GenDecl → Emit Unit
  | .mk kind _ specs => Forms.genDecl release local_ kind (specForms release specs)

def specForms (release : Release) : List Spec → List SpecForm
  | [] => []
  | .value names type values :: ss =>
    .value names type (terms release values) :: specForms release ss
  | .type name type isAlias :: ss => .type name type isAlias :: specForms release ss

end

/-- The statements of a function's body. -/
def bodyOf (release : Release) (decl : FuncDecl) : Emit Unit :=
  stmts release (decl.body.getD [])

/-- Writes methods that waited for their classes. A class in the body of such a method may release
more of them, but no more than wait, so `waiting` may be their number. -/
def releaseAt : (waiting : Nat) → Release
  | 0 => fun _ _ => pure ()
  | waiting + 1 => fun cls decl => Forms.method decl cls (bodyOf (releaseAt waiting) decl)

/-- A function, or a method. A method of a class that is not known yet has to wait for it. -/
def funcDecl (release : Release) (decl : FuncDecl) : Emit Unit := do
  match decl.receiver with
  | none => Forms.function decl none (bodyOf release decl)
  | some receiver =>
    let p ← program
    let cls := Forms.receiverClass receiver.type
    match p.classIndex.get? cls with
    | some id => Forms.method decl id (bodyOf release decl)
    | none =>
      if p.phase = .discovery then
        let cursor : Cursor := ⟨← read, (← get).owed⟩
        modifyProgram fun p => { p with parked := p.parked ++ [⟨cls, decl, cursor⟩] }
      else Forms.function decl decl.receiver (bodyOf release decl)

/-- A declaration of a package. -/
def decl (d : Decl) : Emit Unit := do
  let release := releaseAt (← program).parked.length
  match d with
  | .func d => funcDecl release d
  | .gen d => genDecl release false d

/-- A method without a class, as a function with its receiver for a parameter. -/
def staticMethod (d : FuncDecl) : Emit Unit := do
  let release := releaseAt (← program).parked.length
  Forms.function d d.receiver (bodyOf release d)

/-- Writes the text of a task. -/
def run (release : Release) : Task → Emit Unit
  | .typeName type style => writeTypeNow style type
  | .declared name value style => Forms.declaredNow style name value
  | .rangeHeader loop => Forms.rangeHeaderNow loop (expr release none loop.iterable)
  | .rangeBindings loop => Forms.rangeBindingsNow loop (expr release none loop.iterable)
  | .elementUpdate base index update =>
    Forms.elementUpdateNow (term base) (term index) (update.map term)
  | .element base index => Forms.elementNow (term base) (term index)
  | .slice base low high => Forms.sliceNow (term base) (low.map term) (high.map term)
  | .length value => Forms.lengthNow (term value)
  | .conformance value declared => Forms.checkConformance value declared
where
  term (e : Expr) : Term := ⟨e, expr release none e⟩

end Conversion

end GoToJava
