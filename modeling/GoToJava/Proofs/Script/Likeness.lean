import GoToJava.Forms.Expression
import GoToJava.Proofs.Spelling

/-!
Programs that are alike: they differ at most in the numbers of their drafts and in what some names
stand for. What is looked up while text is written has the same answer in alike programs, and so has
each step of inference.
-/

namespace GoToJava

open Go (Expr title)

/-! ## Units, classes and programs -/

/-- The units differ at most in where their text and their import lines are. -/
def CompilationUnit.Like (u v : CompilationUnit) : Prop :=
  v = { u with root := v.root, importsAt := v.importsAt }

/-- The classes differ at most in where they are written. -/
def JavaClass.Like (c d : JavaClass) : Prop :=
  d = { c with implementsAt := d.implementsAt, functionsAt := d.functionsAt }

/-- A method that waits, wherever it was met. -/
def ParkedMethod.content (m : ParkedMethod) : String × Go.FuncDecl := (m.cls, m.decl)

namespace Program

/-- The programs differ at most in the numbers of drafts, and in what names stand for that are not
settled. -/
structure Like (settled : String → Prop) (p q : Program) : Prop where
  units : q.units.size = p.units.size
  unit : ∀ u, (p.unit u).Like (q.unit u)
  unitIndex : q.unitIndex = p.unitIndex
  typeUnits : q.typeUnits = p.typeUnits
  classes : q.classes.size = p.classes.size
  cls : ∀ c, (p.classAt c).Like (q.classAt c)
  classIndex : q.classIndex = p.classIndex
  interfaces : q.interfaces = p.interfaces
  typeNames : ∀ name, settled name → q.typeNames.get? name = p.typeNames.get? name
  scopes : q.scopes = p.scopes
  libraries : q.libraries = p.libraries
  parked : q.parked.map (·.content) = p.parked.map (·.content)
  phase : q.phase = p.phase
  iota : q.iota = p.iota

theorem Like.refl (settled : String → Prop) (p : Program) : p.Like settled p where
  units := rfl
  unit _ := rfl
  unitIndex := rfl
  typeUnits := rfl
  classes := rfl
  cls _ := rfl
  classIndex := rfl
  interfaces := rfl
  typeNames _ _ := rfl
  scopes := rfl
  libraries := rfl
  parked := rfl
  phase := rfl
  iota := rfl

end Program

/-- What a type says is settled: all names in it are those of basic types or settled ones. -/
def Go.Expr.Certain (settled : String → Prop) (type : Expr) : Prop :=
  type.Spelled fun name => Java.isPrimitive name = true ∨ settled (title name)

theorem Go.Expr.certain_of_all {settled : String → Prop} (h : ∀ name, settled name) (type : Expr) :
    type.Certain settled :=
  Go.Expr.spelled_of_all (fun _ => Or.inr (h _)) type

/-! ## Looking things up -/

/-- The same is known at both places. -/
structure Place.SameSight (a b : Place) : Prop where
  unit : b.unit = a.unit
  scope : b.scope = a.scope
  receiver : b.receiver = a.receiver

/-- The same is known in both programs of types with settled names, and of the variables of some
names in some scopes. -/
structure Program.Akin (settled : String → Prop) (S : Nat → String → Prop) (p q : Program) :
    Prop where
  unit : ∀ u, q.unit u = { p.unit u with
    root := (q.unit u).root, importsAt := (q.unit u).importsAt,
    referenced := (q.unit u).referenced, imports := (q.unit u).imports }
  unitIndex : q.unitIndex = p.unitIndex
  typeUnits : q.typeUnits = p.typeUnits
  cls : ∀ c, (p.classAt c).Like (q.classAt c)
  classIndex : q.classIndex = p.classIndex
  typeNames : ∀ name, settled name → q.typeNames.get? name = p.typeNames.get? name
  var : ∀ scope name, S scope name → q.scopes.var scope name = p.scopes.var scope name

/-- All names in all scopes. -/
def everywhere : Nat → String → Prop := fun _ _ => True

variable {settled : String → Prop} {S : Nat → String → Prop} {p q : Program} {a b : Place}

namespace Program.Akin

variable (h : p.Akin settled S q)
include h

theorem packageUnit (u : Nat) : (q.unit u).packageUnit = (p.unit u).packageUnit :=
  congrArg (·.packageUnit) (h.unit u)

theorem funcs (u : Nat) : (q.unit u).funcs = (p.unit u).funcs := congrArg (·.funcs) (h.unit u)

theorem symbols (u : Nat) : (q.unit u).symbols = (p.unit u).symbols :=
  congrArg (·.symbols) (h.unit u)

theorem fields (c : Nat) : (q.classAt c).fields = (p.classAt c).fields :=
  congrArg (·.fields) (h.cls c)

theorem methods (c : Nat) : (q.classAt c).methods = (p.classAt c).methods :=
  congrArg (·.methods) (h.cls c)

theorem classOf (type : Expr) : q.classOf? type = p.classOf? type := by
  unfold Program.classOf?
  rw [h.classIndex]

theorem unitOf (type : Expr) : q.unitOf? type = p.unitOf? type := by
  have hunit : ∀ c, (q.classAt c).unit = (p.classAt c).unit := fun c => congrArg (·.unit) (h.cls c)
  unfold Program.unitOf?
  simp only [h.classIndex, h.typeUnits, hunit]

/-- A type of which all names are settled stands for the same in the end. -/
theorem unalias {type : Expr} (ht : type.Certain settled)
    (hp : ∀ name t, settled name → p.typeNames.get? name = some t → t.Certain settled) :
    q.unalias type = p.unalias type := by
  unfold Program.unalias
  generalize Program.maxDepth = depth
  induction depth generalizing type with
  | zero => rfl
  | succ depth ih =>
    cases type with
    | ident name =>
      unfold Program.unalias.go
      by_cases hprim : Java.isPrimitive name = true
      · -- A basic type stands for itself, whatever its name is declared to be.
        simp only [hprim, if_true]
        split <;> split <;> rfl
      · have hname : settled (title name) := ht.resolve_left hprim
        rw [h.typeNames _ hname]
        split
        · rename_i target htarget
          rw [if_neg hprim, if_neg hprim]
          exact ih (hp _ _ hname htarget)
        · rfl
    | _ => rfl

theorem unalias_of_all (hall : ∀ name, settled name) (type : Expr) :
    q.unalias type = p.unalias type :=
  h.unalias (Expr.certain_of_all hall type) fun _ _ _ _ => Expr.certain_of_all hall _

variable (hab : a.SameSight b)
include hab

theorem isVar {name : String} (hs : S a.scope name) : q.isVar b name = p.isVar a name := by
  unfold Program.isVar Scopes.isVar
  rw [hab.scope, h.var _ _ hs]

theorem importName (name : String) : q.importName b name = p.importName a name := by
  unfold Program.importName
  rw [hab.unit, h.packageUnit]
  exact congrArg (·.importNames.get? name) (h.unit _)

theorem importedUnit (name : String) : q.importedUnit b name = p.importedUnit a name := by
  unfold Program.importedUnit
  rw [h.importName hab, h.unitIndex]

theorem importedFunc (package name : String) :
    q.importedFunc? b package name = p.importedFunc? a package name := by
  unfold Program.importedFunc?
  simp only [h.importedUnit hab, h.symbols]

theorem localFunc (name : String) : q.localFunc? b name = p.localFunc? a name := by
  unfold Program.localFunc?
  simp only [hab.unit, h.packageUnit, h.funcs]

theorem isTypeCallee (hall : ∀ name, settled name) :
    ∀ e : Expr, e.Spelled (S a.scope) → q.isTypeCallee b e = p.isTypeCallee a e
  | .paren e, he | .star e, he => isTypeCallee hall e he
  | .ident name, he => by
    show (!q.isVar b name && (Java.isPrimitive name || (q.typeNames.get? (title name)).isSome ||
      q.classIndex.contains (title name))) = _
    rw [h.isVar hab he, h.typeNames _ (hall _), h.classIndex]
    rfl
  | .selector base _, _ => by cases base <;> rfl
  | .lit .., _ | .composite .., _ | .funcLit .., _ | .index .., _ | .slice .., _ | .assert .., _
  | .call .., _ | .unary .., _ | .binary .., _ | .keyValue .., _ | .arrayType .., _ | .mapType .., _
  | .funcType _, _ | .structType _, _ | .interfaceType _, _ | .ellipsis _, _ | .chanType _, _
  | .unsupported _, _ => rfl

end Program.Akin

namespace Program.Like

variable (h : p.Like settled q)
include h

theorem akin : p.Akin settled S q where
  unit u := by
    have hunit := h.unit u
    unfold CompilationUnit.Like at hunit
    rw [hunit]
  unitIndex := h.unitIndex
  typeUnits := h.typeUnits
  cls := h.cls
  classIndex := h.classIndex
  typeNames := h.typeNames
  var scope name _ := by rw [h.scopes]

theorem isVar (place : Place) (draft : Nat) (name : String) :
    q.isVar { place with draft } name = p.isVar place name :=
  h.akin.isVar (S := everywhere) ⟨rfl, rfl, rfl⟩ trivial

theorem packageUnit (u : Nat) : (q.unit u).packageUnit = (p.unit u).packageUnit :=
  congrArg (·.packageUnit) (h.unit u)

theorem importName (place : Place) (draft : Nat) (name : String) :
    q.importName { place with draft } name = p.importName place name :=
  h.akin.importName (S := everywhere) ⟨rfl, rfl, rfl⟩ name

theorem guessType (place : Place) (draft : Nat) :
    ∀ e : Expr, q.guessType { place with draft } e = p.guessType place e
  | .ident name => by
    show (q.scopes.var place.scope name).getD (.ident name) = _
    rw [h.scopes]
    rfl
  | .paren e => guessType place draft e
  | .unary op e => by
    cases op with
    | addr => exact guessType place draft e
    | _ => rfl
  | .composite type _ | .assert _ type => by cases type <;> rfl
  | .lit .. | .funcLit .. | .selector .. | .index .. | .slice .. | .call .. | .star _ | .binary ..
  | .keyValue .. | .arrayType .. | .mapType .. | .funcType _ | .structType _ | .interfaceType _
  | .ellipsis _ | .chanType _ | .unsupported _ => rfl

theorem tableName (place : Place) (draft : Nat) (callee : Expr) :
    Forms.tableName? q { place with draft } callee = Forms.tableName? p place callee := by
  unfold Forms.tableName?
  simp only [h.isVar]

theorem packageClass (place : Place) (draft : Nat) (callee : Expr) :
    Forms.packageClass? q { place with draft } callee = Forms.packageClass? p place callee := by
  have hfuncs : ∀ u, (q.unit u).funcs = (p.unit u).funcs := fun u => congrArg (·.funcs) (h.unit u)
  have hname : ∀ u, (q.unit u).name = (p.unit u).name := fun u => congrArg (·.name) (h.unit u)
  unfold Forms.packageClass?
  simp only [h.packageUnit, h.isVar, hfuncs, hname]

theorem isTypeCallee (place : Place) (draft : Nat) (hall : ∀ name, settled name) (e : Expr) :
    q.isTypeCallee { place with draft } e = p.isTypeCallee place e :=
  h.akin.isTypeCallee (S := everywhere) (a := place) (b := { place with draft })
    ⟨rfl, rfl, rfl⟩ hall
    e (e.spelled_of_all fun _ => trivial)

end Program.Like

/-! ## Questions and moves of inference -/

/-- All that the names are bound to has such names only, and so has the initial value of each
variable of a package with such a name. -/
structure Program.Closed (p : Program) (S : Nat → String → Prop) : Prop where
  bound : ∀ scope name e, S scope name → p.scopes.var scope name = some e → e.Spelled (S scope)
  value : ∀ place name unit field e, S place.scope name → p.importedUnit place name = some unit →
    (p.unit unit).symbols.values.get? field = some e → e.Spelled (S (p.unit unit).scope)

theorem Program.closed_everywhere (p : Program) : p.Closed everywhere where
  bound _ _ e _ _ := e.spelled_of_all fun _ => trivial
  value _ _ _ _ e _ _ _ := e.spelled_of_all fun _ => trivial

namespace Inference

variable {e next : Expr} {unit : Option Nat} {answer : Option Expr}

theorem of_ne_again (type : Option Expr) : Move.of type ≠ .again e := by cases type <;> exact nofun

theorem var_of_again {name : String} (h : moveIdent p a name = .again e) :
    p.scopes.var a.scope name = some e := by
  unfold moveIdent at h
  repeat' split at h
  all_goals first
    | cases h; assumption
    | cases h

theorem mem_of_builtin {name : String} {args : List Expr}
    (h : builtin? name args = some (.again e)) :
    e ∈ args := by
  unfold builtin? at h
  split at h
  all_goals first
    | cases h; exact List.mem_cons_self
    | cases h

theorem mem_of_again {callee : Expr} {args : List Expr}
    (h : moveCall p a answer callee args = .again e) : e ∈ args := by
  unfold moveCall moveMethod moveTabled at h
  repeat' split at h
  all_goals first
    | exact absurd h (of_ne_again _)
    | subst h; exact mem_of_builtin ‹_›
    | cases h

theorem moveSelector_ne_again (base : Expr) (field : String) :
    moveSelector p a answer base field ≠ .again e := by
  intro h
  unfold moveSelector at h
  repeat' split at h
  all_goals first
    | exact absurd h (of_ne_again _)
    | cases h

/-- What is asked for next has names of the expression, or of what they are bound to. -/
theorem spelled_of_again {P : String → Prop}
    (hbound : ∀ name e, P name → p.scopes.var a.scope name = some e → e.Spelled P)
    (hn : e.Spelled P) (h : move p a answer e = .again next) : next.Spelled P := by
  cases e with
  | paren e | star e =>
    cases h
    exact hn
  | slice base low high =>
    cases h
    exact hn.1
  | keyValue key value =>
    cases h
    exact hn.2
  | unary op e =>
    cases op with
    | not => cases h
    | _ =>
      cases h
      exact hn
  | binary l op r =>
    dsimp only [move] at h
    split at h
    · cases h
    · split at h
      · cases h
        exact hn.2
      · cases h
        exact hn.1
  | ident name => exact hbound _ _ hn (var_of_again h)
  | index base index => exact absurd h (of_ne_again _)
  | call callee args spread => exact Go.Expr.spelledList_iff.1 hn.2 _ (mem_of_again h)
  | selector base field => exact absurd h (moveSelector_ne_again _ _)
  | composite type elements | assert base type => cases type <;> cases h
  | lit | funcLit => cases h
  | arrayType | mapType | funcType | structType | interfaceType | ellipsis | chanType => cases h
  | unsupported kind => cases h

/-- What is asked for first is a part of the expression, or the initial value of a variable of a
package that is imported under one of its names. -/
theorem question_cases {P : String → Prop} (hn : e.Spelled P)
    (h : question p a e = some (unit, next)) :
    unit = none ∧ next.Spelled P ∨ ∃ package field u, P package ∧ unit = some u ∧
      p.importedUnit a package = some u ∧
      (p.unit u).symbols.values.get? field = some next := by
  unfold question at h
  split at h
  · cases h
    exact Or.inl ⟨rfl, hn.1⟩
  · split at h
    · cases h
    · obtain ⟨u, hunit, hfound⟩ := Option.bind_eq_some_iff.1 h
      dsimp only at hfound
      split at hfound
      · cases hfound
      · obtain ⟨value, hvalue, heq⟩ := Option.map_eq_some_iff.1 hfound
        cases heq
        exact Or.inr ⟨_, _, u, hn.1, rfl, hunit, hvalue⟩
  · repeat' split at h
    all_goals first
      | cases h; exact Or.inl ⟨rfl, hn.1.1⟩
      | cases h
  · cases h

section

variable (hall : ∀ name, settled name) (hclosed : p.Closed S) (h : p.Akin settled S q)
  (hab : a.SameSight b)

include h in
theorem source?_congr (hall : ∀ name, settled name) : source? q answer = source? p answer :=
  congrArg (Option.map · answer) (funext fun _ => h.unalias_of_all hall _)

include h in
theorem moveMethod_congr (hall : ∀ name, settled name) (name : String) :
    moveMethod q answer name = moveMethod p answer name := by
  unfold moveMethod
  simp only [source?_congr h hall, h.classOf, h.methods, h.unitOf, h.funcs]

include h in
theorem abroad_eq : abroad q unit = abroad p unit := by
  funext place
  cases unit with
  | none => rfl
  | some u => simp only [abroad, congrArg (·.scope) (h.unit u)]

include h hab

include hclosed in
theorem moveIdent_congr {name : String} (hn : S a.scope name) :
    moveIdent q b name = moveIdent p a name := by
  unfold moveIdent
  rw [hab.scope, h.var _ _ hn]
  cases hbound : p.scopes.var a.scope name with
  | none => rfl
  | some bound =>
    have hnames := hclosed.bound _ _ _ hn hbound
    cases bound with
    | ident inner =>
      dsimp only
      rw [h.isVar hab hnames]
    | _ => rfl

theorem moveSelector_congr {base : Expr} (field : String) (hn : base.Spelled (S a.scope)) :
    moveSelector q b answer base field = moveSelector p a answer base field := by
  cases base with
  | ident name =>
    unfold moveSelector
    simp only [h.isVar hab hn, h.importedUnit hab, h.symbols, hab.receiver, h.fields]
  | _ => rfl

include hall

theorem moveCall_congr {callee : Expr} (args : List Expr) (hn : callee.Spelled (S a.scope)) :
    moveCall q b answer callee args = moveCall p a answer callee args := by
  unfold moveCall
  rw [h.isTypeCallee hab hall callee hn]
  cases callee with
  | ident name => simp only [h.isVar hab hn, h.localFunc hab]
  | selector base name =>
    cases base with
    | ident package =>
      simp only [h.isVar hab hn.1, moveMethod_congr h hall, h.importedFunc hab]
    | _ => simp only [moveMethod_congr h hall]
  | _ => rfl

theorem question_congr (hn : e.Spelled (S a.scope)) : question q b e = question p a e := by
  cases e with
  | call callee args spread =>
    dsimp only [question]
    rw [h.isTypeCallee hab hall callee hn.1]
    cases callee with
    | selector base name =>
      cases base with
      | ident package => simp only [h.isVar hab hn.1.1]
      | _ => rfl
    | _ => rfl
  | selector base field =>
    cases base with
    | ident package =>
      unfold question
      simp only [h.isVar hab hn.1, h.importedUnit hab, h.symbols]
    | _ => rfl
  | _ => rfl

include hclosed

theorem move_congr (hn : e.Spelled (S a.scope)) : move q b answer e = move p a answer e := by
  cases e with
  | ident name => exact moveIdent_congr hclosed h hab hn
  | index base index => exact congrArg (Move.of <| elementType ·) (source?_congr h hall)
  | call callee args spread => exact moveCall_congr hall h hab args hn.1
  | selector base field => exact moveSelector_congr h hab field hn.1
  | unary op e => cases op <;> rfl
  | composite type elements | assert base type => cases type <;> rfl
  | _ => rfl

end

end Inference

end GoToJava
