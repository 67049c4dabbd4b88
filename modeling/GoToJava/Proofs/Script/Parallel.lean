import GoToJava.Forms.Declaration
import GoToJava.Proofs.Program.Sound
import GoToJava.Proofs.Script.Likeness
import GoToJava.Proofs.Script.Rules

/-!
What actions are made of. Two actions are parallel if they take the same steps in the same order:
text, holes, notes in the program's tables, and questions that alike programs answer alike. The
drafts they write to may have different numbers. Everything that is shown of all steps holds of all
actions that are parallel to themselves.

The steps are graded: by the brackets that are still to be closed before and after them, and by what
is known to be there while they are taken.
-/

namespace GoToJava

open Go (Expr Field FuncDecl Rules title)
open Emit

variable {text : String}

/-! ## Notes -/

/-- All classes that conversion imports by itself. -/
def Java.Import.all : List Java.Import := [.date, .arrayUtil, .map, .hashMap, .arrays, .function]

/-- What writing notes in the tables of a program. -/
inductive Note where
  | var (scope : Nat) (name : String) (type : Expr)
  | newScope (parent : Nat) (vars : List (String × Expr))
  | iota (index : Option Nat)
  | interface (name : String)
  | typeName (name : String) (type : Expr)
  | method (cls : Nat) (name : String) (result : Expr)
  | conformance (cls : Nat) (name : String)
  | need (i : Java.Import)
  /-- The class of an imported package is used. -/
  | package (name : String)
  | refer (name : String)
  | func (name : String) (result : Expr)
  | varType (name : String) (type : Expr)
  | varValue (name : String) (value : Expr)
  /-- A method waits for its class. -/
  | park (cls : String) (decl : FuncDecl)

/-- Makes a note at a cursor. -/
def Note.make (at_ : Cursor) (p : Program) : Note → Program
  | var scope name type => { p with scopes := p.scopes.setVar scope name type }
  | newScope parent vars =>
    { p with
      scopes := vars.foldl (fun s (name, type) => s.setVar p.scopes.next name type)
        (p.scopes.new (some parent)) }
  | iota index => { p with iota := index }
  | interface name => { p with interfaces := p.interfaces.insert name }
  | typeName name type => { p with typeNames := p.typeNames.set name type }
  | method cls name result =>
    p.modifyClass cls fun c => { c with methods := c.methods.add name result }
  | conformance cls name =>
    p.modifyClass cls fun c => { c with interfaces := c.interfaces.insert name }
  | need i =>
    p.modifyUnit at_.place.unit fun u => { u with imports := u.imports.insert i.qualified }
  | package name =>
    match (p.importName at_.place name).bind (·.qualified) with
    | some qualified =>
      p.modifyUnit at_.place.unit fun u => { u with imports := u.imports.insert qualified }
    | none => p
  | refer name =>
    p.modifyUnit at_.place.unit fun u => { u with referenced := u.referenced.insert name }
  | func name result =>
    p.modifyUnit at_.place.unit fun u =>
      { u with
        funcs := u.funcs.add name result
        symbols := if Go.isExported name then u.symbols.addFunc name result else u.symbols }
  | varType name type =>
    p.modifyUnit at_.place.unit fun u => { u with symbols := u.symbols.addType name type }
  | varValue name value =>
    p.modifyUnit at_.place.unit fun u => { u with symbols := u.symbols.addValue name value }
  | park cls decl => { p with parked := p.parked ++ [⟨cls, decl, at_⟩] }

/-! ## Steps as actions -/

namespace Emit

variable {α : Type}

def note (n : Note) : Emit Unit := fun place desk =>
  ((), { desk with program := n.make ⟨place, desk.owed⟩ desk.program })

/-- Ends a line. -/
def newline : Emit Unit := do
  let place ← read
  modifyProgram (·.write place.draft "\n")
  owe

/-- Writes where the methods of a class are. -/
def inMethods (cls : Nat) (text : Emit Unit) : Emit Unit := do
  elsewhere ((← program).classAt cls).functionsAt text

/-- Where a class says which interfaces it implements. -/
def implementsCursor (c : JavaClass) : Cursor :=
  { c.implementsAt with place := { c.implementsAt.place with unit := c.unit } }

/-- Writes after the interfaces of a class, if there is such a class. -/
def inImplements (cls : String) (text : Emit Unit) : Emit Unit := do
  let p ← program
  match p.classIndex.get? cls with
  | some id => elsewhere (implementsCursor (p.classAt id)) text
  | none => pure ()

/-- Writes in the unit of an exported type, which is started if need be. -/
def inTypeUnit (name : String) (text : Emit Unit) : Emit Unit := do
  let place ← read
  let (cursor, p) := (← program).typeUnit place name
  modifyProgram fun _ => p
  elsewhere cursor text

/-- Leaves a hole for a task, and goes on after it. -/
def leave (task : Task) : Emit Unit := do
  match task.placement with
  | .inline => discard (reserveInline (some task))
  | .statement =>
    discard (reserveInline (some task))
    unless (← read).bare do owe
  | .block => discard (reserveBlock (some task))

theorem defer_apply (task : Task) (now : Emit Unit) (place : Place) (desk : Desk) :
    defer task now place desk =
      if desk.program.phase != .discovery || task.direct || place.scratch then now place desk
      else leave task place desk := by
  show (if _ then now else leave task : Emit Unit) place desk = _
  split <;> rfl

/-- Opens a scope with some variables, within the scope of the place or of its package. -/
def openScope (inner : Bool) (vars : List (String × Expr)) : Emit Nat := do
  if inner then newScope (← read).scope vars else newScope (← Forms.packageScope) vars

/-- The scope around one that is opened at a place. -/
def scopeAround (inner : Bool) (p : Program) (place : Place) : Nat :=
  if inner then place.scope else (p.unit place.unit).scope

/-- Makes a class known. No method waits for it any longer. -/
def register (cls : JavaClass) : Emit Unit :=
  modifyProgram fun p =>
    { p with
      classes := p.classes.push cls
      classIndex := p.classIndex.set cls.name p.classes.size
      parked := p.parked.filter (·.cls != cls.name) }

/-- Makes a class known, and answers its number. -/
def enroll (cls : JavaClass) : Emit Nat := do
  let id := (← program).classes.size
  register cls
  return id

/-- Where a text that is only looked at is written. -/
def scratchCursor (place : Place) (p : Program) : Cursor :=
  ⟨{ place with draft := p.drafts.next, tabs := 0, bare := true, scratch := true }, false⟩

section

variable (place : Place) (desk : Desk) {cls : String}

theorem elsewhere_apply (cursor : Cursor) (x : Emit α) :
    elsewhere cursor x place desk =
      ((x cursor.place ⟨desk.program, cursor.owed⟩).1,
        ⟨(x cursor.place ⟨desk.program, cursor.owed⟩).2.program, desk.owed⟩) := rfl

theorem inMethods_apply (cls : Nat) (x : Emit Unit) :
    inMethods cls x place desk =
      elsewhere (desk.program.classAt cls).functionsAt x place desk := rfl

theorem inImplements_of_some {id : Nat} (x : Emit Unit)
    (h : desk.program.classIndex.get? cls = some id) : inImplements cls x place desk =
      elsewhere (implementsCursor (desk.program.classAt id)) x place desk := by
  show (match desk.program.classIndex.get? cls with
    | some id => elsewhere (implementsCursor (desk.program.classAt id)) x
    | none => pure () : Emit Unit) place desk = _
  rw [h]

theorem inImplements_of_none (x : Emit Unit) (h : desk.program.classIndex.get? cls = none) :
    inImplements cls x place desk = ((), desk) := by
  show (match desk.program.classIndex.get? cls with
    | some id => elsewhere (implementsCursor (desk.program.classAt id)) x
    | none => pure () : Emit Unit) place desk = _
  rw [h]
  rfl

theorem inTypeUnit_apply (name : String) (x : Emit Unit) :
    inTypeUnit name x place desk =
      elsewhere (desk.program.typeUnit place name).1 x place
        ⟨(desk.program.typeUnit place name).2, desk.owed⟩ := rfl

theorem openScope_apply (inner : Bool) (vars : List (String × Expr)) :
    openScope inner vars place desk = (desk.program.scopes.next,
        (note (.newScope (scopeAround inner desk.program place) vars) place desk).2) := by
  cases inner <;> rfl

theorem openScope_then (inner : Bool) (vars : List (String × Expr)) (f : Nat → Emit α) :
    (openScope inner vars >>= f) place desk = f desk.program.scopes.next place
        (note (.newScope (scopeAround inner desk.program place) vars) place desk).2 := by
  cases inner <;> rfl

theorem enroll_then (cls : JavaClass) (f : Nat → Emit α) :
    (enroll cls >>= f) place desk =
      f desk.program.classes.size place (register cls place desk).2 := rfl

theorem inspect_apply (x : Emit α) (p : Program) (owed : Bool) :
    inspect x place ⟨p, owed⟩ =
      let r := x (scratchCursor place p).place ⟨{ p with drafts := p.drafts.new }, false⟩
      ((r.1, r.2.program.drafts.text p.drafts.next), ⟨r.2.program, owed⟩) := rfl

end

end Emit

theorem Program.Like.scopeAround {settled : String → Prop} {p q : Program}
    (h : p.Like settled q) (inner : Bool) (place : Place) (draft : Nat) :
    scopeAround inner q { place with draft } = scopeAround inner p place := by
  unfold Emit.scopeAround
  rw [congrArg (·.scope) (h.unit place.unit)]

/-! ## Parallel actions -/

/-- How two programs are looked at while the same is written in both. -/
structure Outlook where
  rules : Rules
  /-- Names and literals have no brackets. -/
  tidy : Prop := False
  /-- Things may be declared, and not only named. -/
  declares : Prop := True
  /-- Text that depends on declarations may be written at once. -/
  eager : Prop
  /-- Methods may be written into classes that are there. -/
  methods : Prop
  /-- Classes that are there may come to implement interfaces. -/
  conforms : Prop
  /-- Classes that may become known. -/
  registers : String → Prop := rules.cls
  /-- Structs may be taken as one step, with all methods that are released so. -/
  whole : Release → Prop := fun _ => False
  /-- Other actions that may be taken as one step. -/
  atom : {α : Type} → Emit α → Prop := fun _ => False
  /-- Constants may be numbered in a step of its own. -/
  counts : Prop := True
  /-- The places of the holes that are left in the two programs. -/
  twin : Place → Place → Prop
  /-- Names that stand for the same in both programs. -/
  settled : String → Prop
  /-- What is known of either program. -/
  knows : Program → Prop
  clear : eager → ∀ name, settled name
  literal : ∀ t, rules.literal t → t.Certain settled
  certain : ∀ p, knows p → ∀ name t, settled name → p.typeNames.get? name = some t →
    t.Certain settled
  callee : ∀ e, rules.callee e → eager ∨ ∀ place p, knows p → p.isTypeCallee place e = false
  parked : methods → ∀ p, knows p → ∀ m ∈ p.parked, m.decl.Obeys rules
  spelt : ∀ p, knows p → p.Spelt tidy := by exact fun p _ => Program.spelt_of_loose id p

namespace Outlook

/-- All names stand for the same, so all text may be written at once, except for methods of classes
that are there. -/
def sure (rules : Rules) (twin : Place → Place → Prop) : Outlook where
  rules
  eager := True
  methods := False
  conforms := True
  twin
  settled _ := True
  knows _ := True
  clear _ _ := trivial
  literal := fun t _ => Go.Expr.certain_of_all (fun _ => trivial) t
  certain := fun _ _ _ t _ _ => Go.Expr.certain_of_all (fun _ => trivial) t
  callee _ _ := Or.inl trivial
  parked := fun h => h.elim

end Outlook

/-- What is known to be there while text is written. -/
structure Ken where
  /-- Variables may be bound in the scope of the place. -/
  binds : Prop := False
  /-- The scopes that were opened meanwhile. -/
  opened : Nat → Prop := fun _ => False
  /-- Units and their scopes. -/
  home : Nat → Nat → Prop := fun _ _ => False
  cls : Nat → Prop := fun _ => False

namespace Ken

/-- All is there. -/
def all : Ken := ⟨True, fun _ => True, fun _ _ => True, fun _ => True⟩

variable (K : Ken)

/-- What is known elsewhere. -/
def away : Ken := { K with binds := False }

/-- What is known after a look at a program: all that its tables list is there. -/
def seen (p : Program) : Ken :=
  { K with
    home := fun u scope =>
      K.home u scope ∨ (∃ key, p.unitIndex.get? key = some u) ∧ scope = (p.unit u).scope
    cls := fun c => K.cls c ∨ ∃ name, p.classIndex.get? name = some c }

def opening (scope : Nat) : Ken := { K with opened := fun s => K.opened s ∨ s = scope }

def enrolled (id : Nat) : Ken := { K with cls := fun c => K.cls c ∨ c = id }

end Ken

/-- Tasks that bind variables. -/
def Task.Binds : Task → Prop
  | .declared .. | .rangeHeader _ => True
  | _ => False

namespace Outlook

variable (W : Outlook) (K : Ken)

/-- Notes that may be made: what a name stands for and which methods wait is subject to the rules,
and variables are bound in new scopes. -/
def Allows : Note → Prop
  | .need i => i ∈ Java.Import.all
  | .package _ | .refer _ => True
  | .var scope _ type => K.opened scope ∧ type.Spelled (Plain W.tidy)
  | .newScope _ _ => False
  | .iota index => W.declares ∧ (index = none ∨ W.counts)
  | .interface name => W.declares ∧ Plain W.tidy name
  | .typeName name type => W.declares ∧ W.rules.named name type ∧ type.Spelled (Plain W.tidy)
  | .method _ _ type | .func _ type | .varType _ type | .varValue _ type =>
    W.declares ∧ type.Spelled (Plain W.tidy)
  | .conformance _ _ => W.conforms
  | .park _ decl => W.declares ∧ W.methods ∧ decl.Obeys W.rules ∧ decl.Spelled (Plain W.tidy)

/-- Classes that are there may come to implement interfaces, if only in one step. -/
def Conforms : Prop :=
  W.conforms ∨ ∀ value declared, W.atom (Forms.checkConformance value declared)

/-- Cursors at twin places, which differ in their drafts at most. -/
def Cursors (c d : Cursor) : Prop :=
  d = { c with place := { c.place with draft := d.place.draft } } ∧ W.twin c.place d.place

/-- Classes written at twin places. -/
structure Classes (c d : JavaClass) : Prop where
  like : c.Like d
  implementsAt : W.Cursors c.implementsAt d.implementsAt
  functionsAt : W.Cursors c.functionsAt d.functionsAt

/-- The result that a place speaks of is spelled. -/
def Sees (place : Place) : Prop := ∀ t, place.result = some t → t.Spelled (Plain W.tidy)

theorem sees_of_loose (h : ¬W.tidy) (place : Place) : W.Sees place :=
  fun t _ => Expr.spelled_of_all (fun _ ht => absurd ht h) t

/-- The place has another draft only if it had one before, and is in the same unit unless its text
is only looked at. Variables are bound in the same scope, or in one that was opened meanwhile. -/
structure Steers (f : Place → Place) (binds : Prop) : Prop where
  draft : ∀ place draft, f { place with draft } = { f place with draft }
  scratch : ∀ place, (f place).scratch = place.scratch
  home : ∀ place, (f place).unit = place.unit ∧
      ((f place).scope = place.scope ∧ (binds → K.binds) ∨ K.opened (f place).scope) ∨
    place.scratch = true ∧ K.home (f place).unit (f place).scope ∧ ¬binds
  receiver : ∀ place r, (f place).receiver = some r → place.receiver = some r ∨ K.cls r.cls
  result : ∀ place, W.Sees place → W.Sees (f place)

variable {W K} in
theorem Steers.same {f : Place → Place} {binds : Prop} (h : W.Steers K f binds) (place : Place) :
    (f place).draft = place.draft :=
  congrArg (·.draft) (h.draft place place.draft)

variable {W K} in
theorem Steers.unit {f : Place → Place} {binds : Prop} (h : W.Steers K f binds) {place : Place}
    (hscratch : place.scratch = false) : (f place).unit = place.unit := by
  rcases h.home place with ⟨hunit, -⟩ | ⟨hlook, -⟩
  · exact hunit
  · rw [hscratch] at hlook
    cases hlook

end Outlook

/-- The actions take the same steps, and their answers are related by `R`. The steps take the
brackets that are still to be closed from one stack to another. -/
inductive Parallel (W : Outlook) :
    Ken → List Char → List Char → {α : Type} → (α → α → Prop) → Emit α → Emit α → Prop
  | pure {K : Ken} {a : List Char} {α : Type} {R : α → α → Prop} {v u : α} (h : R v u) :
      Parallel W K a a R (pure v) (pure u)
  | bind {K : Ken} {a b c : List Char} {α β : Type} {R : α → α → Prop} {S : β → β → Prop}
      {x y : Emit α} {f g : α → Emit β} (hx : Parallel W K a b R x y)
      (hf : ∀ v u, R v u → Parallel W K b c S (f v) (g u)) :
      Parallel W K a c S (x >>= f) (y >>= g)
  | program {K : Ken} {a b : List Char} {α : Type} {R : α → α → Prop} {f g : Program → Emit α}
      (h : ∀ p q, W.knows p → W.knows q → p.Like W.settled q →
        Parallel W (K.seen p) a b R (f p) (g q)) :
      Parallel W K a b R (program >>= f) (program >>= g)
  | read {K : Ken} {a b : List Char} {α : Type} {R : α → α → Prop} {f g : Place → Emit α}
      (h : ∀ place draft, W.Sees place → Parallel W K a b R (f place) (g { place with draft })) :
      Parallel W K a b R (read >>= f) (read >>= g)
  | within {K : Ken} {a b : List Char} {α : Type} {R : α → α → Prop} {f : Place → Place}
      {x y : Emit α} {binds : Prop} (hf : W.Steers K f binds)
      (h : Parallel W { K with binds } a b R x y) :
      Parallel W K a b R (withReader f x) (withReader f y)
  | print {K : Ken} {a b : List Char} {text : String} (h : Turns W.tidy a b text) :
      Parallel W K a b Eq (print text) (print text)
  | newline {K : Ken} {a b : List Char} (h : Turns W.tidy a b "\n") :
      Parallel W K a b Eq newline newline
  | owe {K : Ken} {a : List Char} : Parallel W K a a Eq owe owe
  | note {K : Ken} {a : List Char} {n : Note} (h : W.Allows K n) :
      Parallel W K a a Eq (note n) (note n)
  | setVar {K : Ken} {a : List Char} {name : String} {type : Expr} (hb : K.binds)
      (ht : type.Spelled (Plain W.tidy)) :
      Parallel W K a a Eq (setVar name type) (setVar name type)
  | scope {K : Ken} {a b : List Char} {α : Type} {R : α → α → Prop} {inner : Bool}
      {vars : List (String × Expr)} {f g : Nat → Emit α} (hd : W.declares)
      (hv : ∀ v ∈ vars, v.2.Spelled (Plain W.tidy))
      (h : ∀ scope, Parallel W (K.opening scope) a b R (f scope) (g scope)) :
      Parallel W K a b R (openScope inner vars >>= f) (openScope inner vars >>= g)
  | inspect {K : Ken} {a : List Char} {α : Type} {R : α → α → Prop} {x y : Emit α}
      (he : W.eager) (h : Parallel W K [] [] R x y) :
      Parallel W K a a (fun v u => R v.1 u.1 ∧ v.2 = u.2) (inspect x) (inspect y)
  | defer {K : Ken} {a : List Char} {task : Task} {now later : Emit Unit}
      (hs : task.Spelled (Plain W.tidy)) (hb : task.Binds → K.binds)
      (h : W.eager ∨ task.direct = true → Parallel W K a a Eq now later) :
      Parallel W K a a Eq (defer task now) (defer task later)
  | reserve {K : Ken} {a : List Char} (hd : W.declares) (owed : Bool) :
      Parallel W K a a W.Cursors (reserve owed none) (reserve owed none)
  | inMethods {K : Ken} {a : List Char} {cls : Nat} {x y : Emit Unit} (hm : W.methods)
      (hc : K.cls cls) (h : Parallel W K.away [] [] Eq x y) :
      Parallel W K a a Eq (inMethods cls x) (inMethods cls y)
  | inImplements {K : Ken} {a : List Char} {cls : String} {x y : Emit Unit} (hc : W.conforms)
      (h : Parallel W K.away [] [] Eq x y) :
      Parallel W K a a Eq (inImplements cls x) (inImplements cls y)
  | inTypeUnit {K : Ken} {a : List Char} {name : String} {x y : Emit Unit} (hd : W.declares)
      (hn : W.rules.exported name) (hp : Plain W.tidy name)
      (h : Parallel W K.away [] [] Eq x y) :
      Parallel W K a a Eq (inTypeUnit name x) (inTypeUnit name y)
  | enroll {K : Ken} {a b : List Char} {α : Type} {R : α → α → Prop} {c d : JavaClass}
      {f g : Nat → Emit α} (hd : W.declares) (hn : W.registers c.name) (hc : W.Classes c d)
      (h : ∀ id, Parallel W (K.enrolled id) a b R (f id) (g id)) :
      Parallel W K a b R (enroll c >>= f) (enroll d >>= g)
  | struct {K : Ken} {a : List Char} {release : Release} {name : String} {fields : List Field}
      (h : W.whole release) (hn : Plain W.tidy name)
      (hf : Field.SpelledList (Plain W.tidy) fields) :
      Parallel W K a a Eq (Forms.struct release name fields) (Forms.struct release name fields)
  | atom {K : Ken} {a : List Char} {α : Type} {x : Emit α} (h : W.atom x) :
      Parallel W K a a Eq x x
  | numbered {K : Ken} {a : List Char} (index : Nat) {x y : Emit Unit} (hc : ¬W.counts)
      (h : Parallel W K a a Eq x y) :
      Parallel W K a a Eq (note (.iota (some index)) >>= fun _ => x >>= fun _ => note (.iota none))
        (note (.iota (some index)) >>= fun _ => y >>= fun _ => note (.iota none))

/-- The action takes the same steps in alike programs, and closes all brackets it opens. -/
def Scripted (W : Outlook) {α : Type} (x : Emit α) : Prop := ∀ K a, Parallel W K a a Eq x x

/-- The action takes the same steps where variables may be bound. -/
def ScriptedIn (W : Outlook) (x : Emit Unit) : Prop :=
  ∀ K a, K.binds → Parallel W K a a Eq x x

/-! ## Sequences -/

section

variable {W : Outlook} {K : Ken} {a b c : List Char} {α β : Type} {x y : Emit α} {f : β → Emit Unit}
  {l : List β} {S : β → β → Prop}

theorem Parallel.seq {x' y' : Emit β} (h : Parallel W K a b Eq x y)
    (h' : Parallel W K b c S x' y') : Parallel W K a c S (x >>= fun _ => x') (y >>= fun _ => y') :=
  .bind h fun _ _ _ => h'

theorem Parallel.step {f g : α → Emit β} (h : Parallel W K a b Eq x x)
    (hf : ∀ v, Parallel W K b c S (f v) (g v)) : Parallel W K a c S (x >>= f) (x >>= g) := by
  refine .bind h fun v u hvu => ?_
  subst hvu
  exact hf v

theorem Parallel.mono {R S : α → α → Prop} (h : Parallel W K a b R x y)
    (hS : ∀ v u, R v u → S v u) : Parallel W K a b S x y := by
  have hpure : Parallel W K a b S (x >>= Pure.pure) (y >>= Pure.pure) :=
    .bind h fun v u hvu => .pure (hS v u hvu)
  rwa [bind_pure, bind_pure] at hpure

theorem Parallel.word (h : scan text.toList a = some b) :
    Parallel W K a b Eq (Emit.print text) (Emit.print text) :=
  .print (turns_of_scan h)

theorem scripted_pure (v : α) : Scripted W (pure v) := fun _ _ => .pure rfl

theorem scripted_seq {y : Emit β} (hx : Scripted W x) (hy : Scripted W y) :
    Scripted W (x >>= fun _ => y) :=
  fun K a => .seq (hx K a) (hy K a)

theorem Scripted.inner {x : Emit Unit} (h : Scripted W x) : ScriptedIn W x := fun K a _ => h K a

theorem parallel_forM (h : ∀ v ∈ l, Parallel W K a a Eq (f v) (f v)) :
    Parallel W K a a Eq (l.forM f) (l.forM f) := by
  induction l with
  | nil => exact scripted_pure () K a
  | cons v l ih =>
    exact .seq (h v List.mem_cons_self) (ih fun u hu => h u (List.mem_cons_of_mem _ hu))

theorem parallel_separated {separator : String} {texts : List (Emit Unit)}
    (hs : Plain W.tidy separator) (h : ∀ x ∈ texts, Parallel W K a a Eq x x) :
    Parallel W K a a Eq (separated separator texts) (separated separator texts) := by
  induction texts with
  | nil => exact scripted_pure () K a
  | cons x rest ih =>
    have hrest := ih fun y hy => h y (List.mem_cons_of_mem _ hy)
    cases rest with
    | nil => exact h x List.mem_cons_self
    | cons y rest =>
      exact .seq (h x List.mem_cons_self) (.seq (.print (turns_of_plain hs a)) hrest)

theorem scripted_forM (h : ∀ v ∈ l, Scripted W (f v)) : Scripted W (l.forM f) :=
  fun K a => parallel_forM fun v hv => h v hv K a

theorem scripted_list {texts : List (Emit Unit)} (h : ∀ x ∈ texts, Scripted W x) :
    Scripted W (separated ", " texts) :=
  fun K a => parallel_separated (plain_of_chars (by decide)) fun x hx => h x hx K a

theorem scripted_getD {text : Option (Emit Unit)} {other : Emit Unit}
    (h : ∀ x ∈ text, Scripted W x) (ho : Scripted W other) : Scripted W (text.getD other) := by
  cases text with
  | none => exact ho
  | some x => exact h x rfl

theorem scripted_unless {c : Bool} {x : Emit Unit} (h : Scripted W x) :
    Scripted W (unless c do x) := by
  cases c
  · exact h
  · exact scripted_pure ()

theorem scripted_when {c : Prop} [Decidable c] {x : Emit Unit} (h : Scripted W x) :
    Scripted W (if c then x else pure ()) := by
  split
  · exact h
  · exact scripted_pure ()

end

/-! ## Lines and names -/

variable {W : Outlook} {K : Ken} {a b : List Char}

theorem scripted_word (h : scan text.toList [] = some []) : Scripted W (print text) :=
  fun _ a => .word (scan_balanced h a)

theorem scripted_print (h : Plain W.tidy text) : Scripted W (print text) :=
  fun _ a => .print (turns_of_plain h a)

theorem Parallel.println (h : Turns W.tidy a b text) :
    Parallel W K a b Eq (Emit.println text) (Emit.println text) := by
  unfold Emit.println
  split
  · rename_i hempty
    have htext : text = "" := by simpa using hempty
    subst htext
    exact .newline h
  · exact .seq (.print h) (.newline (turns_of_scan rfl))

theorem scripted_println (h : Plain W.tidy text) : Scripted W (Emit.println text) :=
  fun _ a => .println (turns_of_plain h a)

theorem Parallel.line (h : scan text.toList a = some b) :
    Parallel W K a b Eq (Emit.println text) (Emit.println text) :=
  .println (turns_of_scan h)

theorem scripted_endStatement : Scripted W endStatement := by
  refine fun K a => .read fun place draft _ => ?_
  exact scripted_unless (fun _ _ => .line rfl) K a

/-- The place stays where it is, but for how lines are written. -/
theorem Outlook.steers_layout {f : Place → Place}
    (h : ∀ place, ∃ tabs bare, f place = { place with tabs, bare })
    (hd : ∀ place draft, f { place with draft } = { f place with draft }) :
    W.Steers K f K.binds := by
  refine ⟨hd, fun place => ?_, fun place => ?_, fun place r hr => ?_, fun place hp => ?_⟩
  all_goals obtain ⟨tabs, bare, hf⟩ := h place
  · rw [hf]
  · rw [hf]
    exact Or.inl ⟨rfl, Or.inl ⟨rfl, id⟩⟩
  · rw [hf] at hr
    exact Or.inl hr
  · rw [hf]
    exact hp

theorem Parallel.deeper {α : Type} {R : α → α → Prop} {x y : Emit α} (h : Parallel W K a b R x y) :
    Parallel W K a b R (withReader Place.deeper x) (withReader Place.deeper y) :=
  .within (Outlook.steers_layout (fun _ => ⟨_, _, rfl⟩) fun _ _ => rfl) h

theorem Parallel.indented {lines : Emit Unit} (h : Parallel W K a b Eq lines lines) :
    Parallel W K a b Eq (Emit.indented lines) (Emit.indented lines) :=
  .seq .owe (.seq (.deeper h) .owe)

theorem Parallel.bare {text : Emit Unit} (h : Parallel W K a b Eq text text) :
    Parallel W K a b Eq (Emit.bare text) (Emit.bare text) :=
  .within (Outlook.steers_layout (fun _ => ⟨_, _, rfl⟩) fun _ _ => rfl) h

theorem scripted_isVar (name : String) : Scripted W (isVar name) := by
  refine fun K a => .program fun p q _ _ hlike => ?_
  refine .read fun place draft _ => ?_
  rw [hlike.isVar]
  exact .pure rfl

theorem scripted_need {i : Java.Import} (h : i ∈ Java.Import.all) : Scripted W (need i) :=
  fun _ _ => .note (n := .need i) h

theorem scripted_refer (name : String) : Scripted W (refer name) :=
  fun _ _ => .note (n := .refer name) trivial

/-- A task that is put off unless text may depend on declarations. -/
theorem Parallel.later {task : Task} {now : Emit Unit} (hs : task.Spelled (Plain W.tidy))
    (hb : task.Binds → K.binds) (hd : task.direct = false)
    (h : W.eager → Parallel W K a a Eq now now) :
    Parallel W K a a Eq (Emit.defer task now) (Emit.defer task now) := by
  refine .defer hs hb fun he => h (he.resolve_right fun hdirect => ?_)
  rw [hd] at hdirect
  cases hdirect

theorem parallel_reserveInline (hd : W.declares) :
    Parallel W K a a W.Cursors (reserveInline none) (reserveInline none) :=
  .seq (.word rfl) (.reserve hd false)

end GoToJava
