import GoToJava.Go.Name
import GoToJava.Task

/-!
Rules for syntax trees. Most of a tree is converted without a look at what other files declare; the
rules are about the parts that are not: types of composite literals, callees that may be types, and
declared types.
-/

namespace GoToJava.Go

/-- What may stand at the places of a syntax tree where declarations matter. -/
structure Rules where
  /-- The types of composite literals, of what is made, and of variables without a value. -/
  literal : Expr → Prop
  /-- The callees of calls with one argument. -/
  callee : Expr → Prop
  /-- The titles of declared types that are neither structs nor interfaces, and what they stand
  for. -/
  named : String → Expr → Prop
  /-- The titles of structs. -/
  cls : String → Prop
  /-- The titles of exported structs and interfaces. -/
  exported : String → Prop
  /-- Values may be returned. -/
  returns : Prop

/-- The type declaration keeps the rules. -/
def Rules.type (r : Rules) (name : String) (type : Expr) (isAlias : Bool) : Prop :=
  match isAlias, type with
  | false, .structType _ => r.cls (title name) ∧ (isExported name = true → r.exported (title name))
  | false, .interfaceType _ => isExported name = true → r.exported (title name)
  | _, _ => r.named (title name) type

/-- In the lines of a declaration, the types of names without a value keep the rule for literals.
Constants without values repeat the type and the number of values of the line before. -/
def Rules.values (r : Rules) (isConst : Bool) : Option Expr → Nat → List Spec → Prop
  | _, _, [] => True
  | type, count, .type .. :: rest => r.values isConst type count rest
  | type, count, .value names own values :: rest =>
    let repeats := isConst && values.isEmpty
    let here := if repeats then own <|> type else own
    let given := if repeats then count else values.length
    (given < names.length → ∀ t ∈ here, r.literal t) ∧
      r.values isConst (if isConst then here else type) (if isConst then given else count) rest

mutual

/-- All parts of an expression keep the rules. -/
def Expr.Obeys (r : Rules) : Expr → Prop
  | .composite type es => (∀ t ∈ type, r.literal t) ∧ Expr.ObeysList r es
  | .funcLit _ body => Stmt.ObeysList r body
  | .paren e => e.Obeys r
  | .selector base _ => base.Obeys r
  | .index base index => base.Obeys r ∧ index.Obeys r
  | .slice base low high => base.Obeys r ∧ Expr.ObeysOption r low ∧ Expr.ObeysOption r high
  | .assert base _ => base.Obeys r
  | .call callee args _ =>
    callee.Obeys r ∧ Expr.ObeysList r args ∧ (args.length = 1 → r.callee callee) ∧
      (callee = .ident "make" → ∀ t ∈ args.head?, r.literal t)
  | .star e => e.Obeys r
  | .unary _ e => e.Obeys r
  | .binary left _ right => left.Obeys r ∧ right.Obeys r
  | .keyValue key value => key.Obeys r ∧ value.Obeys r
  | _ => True

def Expr.ObeysOption (r : Rules) : Option Expr → Prop
  | none => True
  | some e => e.Obeys r

def Expr.ObeysList (r : Rules) : List Expr → Prop
  | [] => True
  | e :: es => e.Obeys r ∧ Expr.ObeysList r es

def Spec.Obeys (r : Rules) : Spec → Prop
  | .value _ _ values => Expr.ObeysList r values
  | .type name type isAlias => r.type name type isAlias

def Spec.ObeysList (r : Rules) : List Spec → Prop
  | [] => True
  | s :: ss => s.Obeys r ∧ Spec.ObeysList r ss

def GenDecl.Obeys (r : Rules) : GenDecl → Prop
  | .mk kind _ specs =>
    (kind = .var → r.values false none 0 specs) ∧ (kind = .const → r.values true none 0 specs) ∧
      Spec.ObeysList r specs

def CaseClause.Obeys (r : Rules) : CaseClause → Prop
  | .mk values body => Expr.ObeysList r values ∧ Stmt.ObeysList r body

def CaseClause.ObeysList (r : Rules) : List CaseClause → Prop
  | [] => True
  | c :: cs => c.Obeys r ∧ CaseClause.ObeysList r cs

/-- All parts of a statement keep the rules. Deferred calls are not converted. -/
def Stmt.Obeys (r : Rules) : Stmt → Prop
  | .decl d => d.Obeys r
  | .labeled _ s => s.Obeys r
  | .expr e => e.Obeys r
  | .incDec e _ => e.Obeys r
  | .assign targets _ values => Expr.ObeysList r targets ∧ Expr.ObeysList r values
  | .go call => call.Obeys r
  | .return values => (values ≠ [] → r.returns) ∧ Expr.ObeysList r values
  | .block body => Stmt.ObeysList r body
  | .ifElse init cond body alternative =>
    Stmt.ObeysOption r init ∧ cond.Obeys r ∧ Stmt.ObeysList r body ∧
      Stmt.ObeysOption r alternative
  | .switch init tag cases =>
    Stmt.ObeysOption r init ∧ Expr.ObeysOption r tag ∧ CaseClause.ObeysList r cases
  | .for init cond post body =>
    Stmt.ObeysOption r init ∧ Expr.ObeysOption r cond ∧ Stmt.ObeysOption r post ∧
      Stmt.ObeysList r body
  | .range _ _ _ iterable body => iterable.Obeys r ∧ Stmt.ObeysList r body
  | _ => True

def Stmt.ObeysOption (r : Rules) : Option Stmt → Prop
  | none => True
  | some s => s.Obeys r

def Stmt.ObeysList (r : Rules) : List Stmt → Prop
  | [] => True
  | s :: ss => s.Obeys r ∧ Stmt.ObeysList r ss

end

def FuncDecl.Obeys (r : Rules) (d : FuncDecl) : Prop := ∀ body ∈ d.body, Stmt.ObeysList r body

def Decl.Obeys (r : Rules) : Decl → Prop
  | .func d => d.Obeys r
  | .gen d => d.Obeys r

/-! ## No functions -/

namespace Expr

mutual

/-- There is no function literal in the expression. -/
def LacksFunctions : Expr → Prop
  | .funcLit .. => False
  | .composite _ es => AllLackFunctions es
  | .paren e | .selector e _ | .assert e _ | .star e | .unary _ e => e.LacksFunctions
  | .index base i => base.LacksFunctions ∧ i.LacksFunctions
  | .slice base low high =>
    base.LacksFunctions ∧ OptionLacksFunctions low ∧ OptionLacksFunctions high
  | .call callee args _ => callee.LacksFunctions ∧ AllLackFunctions args
  | .binary l _ r => l.LacksFunctions ∧ r.LacksFunctions
  | .keyValue key value => key.LacksFunctions ∧ value.LacksFunctions
  | _ => True

def OptionLacksFunctions : Option Expr → Prop
  | none => True
  | some e => e.LacksFunctions

def AllLackFunctions : List Expr → Prop
  | [] => True
  | e :: es => e.LacksFunctions ∧ AllLackFunctions es

end

end Expr

/-! ## No rules -/

/-- Nothing is forbidden. -/
structure Rules.Lax (r : Rules) : Prop where
  literal : ∀ t, r.literal t
  callee : ∀ e, r.callee e
  named : ∀ name t, r.named name t
  cls : ∀ name, r.cls name
  exported : ∀ name, r.exported name
  returns : r.returns

/-- Anything may stand anywhere. -/
def Rules.free : Rules where
  literal _ := True
  callee _ := True
  named _ _ := True
  cls _ := True
  exported _ := True
  returns := True

theorem Rules.lax_free : Rules.free.Lax :=
  ⟨fun _ => trivial, fun _ => trivial, fun _ _ => trivial, fun _ => trivial, fun _ => trivial,
    trivial⟩

variable {r : Rules}

theorem Rules.Lax.type (h : r.Lax) (name : String) (type : Expr) (isAlias : Bool) :
    r.type name type isAlias := by
  unfold Rules.type
  split
  · exact ⟨h.cls _, fun _ => h.exported _⟩
  · exact fun _ => h.exported _
  · exact h.named _ _

theorem Rules.Lax.values (h : r.Lax) (isConst : Bool) (type : Option Expr) (count : Nat)
    (specs : List Spec) : r.values isConst type count specs := by
  induction specs generalizing type count with
  | nil => trivial
  | cons s specs ih =>
    cases s with
    | value names own values => exact ⟨fun _ t _ => h.literal t, ih _ _⟩
    | type name type isAlias => exact ih _ _

mutual

theorem Expr.obeys_of_lax (h : r.Lax) : ∀ e : Expr, e.Obeys r
  | .composite _ es => ⟨fun t _ => h.literal t, Expr.obeysList_of_lax h es⟩
  | .funcLit _ body => Stmt.obeysList_of_lax h body
  | .paren e | .star e | .unary _ e => Expr.obeys_of_lax h e
  | .selector base _ | .assert base _ => Expr.obeys_of_lax h base
  | .index base index => ⟨Expr.obeys_of_lax h base, Expr.obeys_of_lax h index⟩
  | .slice base low high =>
    ⟨Expr.obeys_of_lax h base, Expr.obeysOption_of_lax h low, Expr.obeysOption_of_lax h high⟩
  | .call callee args _ =>
    ⟨Expr.obeys_of_lax h callee, Expr.obeysList_of_lax h args, fun _ => h.callee _,
      fun _ t _ => h.literal t⟩
  | .binary left _ right => ⟨Expr.obeys_of_lax h left, Expr.obeys_of_lax h right⟩
  | .keyValue key value => ⟨Expr.obeys_of_lax h key, Expr.obeys_of_lax h value⟩
  | .ident _ | .lit .. | .arrayType .. | .mapType .. | .funcType _ | .structType _
  | .interfaceType _ | .ellipsis _ | .chanType _ | .unsupported _ => trivial

theorem Expr.obeysOption_of_lax (h : r.Lax) : ∀ o : Option Expr, Expr.ObeysOption r o
  | none => trivial
  | some e => Expr.obeys_of_lax h e

theorem Expr.obeysList_of_lax (h : r.Lax) : ∀ es : List Expr, Expr.ObeysList r es
  | [] => trivial
  | e :: es => ⟨Expr.obeys_of_lax h e, Expr.obeysList_of_lax h es⟩

theorem Spec.obeys_of_lax (h : r.Lax) : ∀ s : Spec, s.Obeys r
  | .value _ _ values => Expr.obeysList_of_lax h values
  | .type name type isAlias => h.type name type isAlias

theorem Spec.obeysList_of_lax (h : r.Lax) : ∀ ss : List Spec, Spec.ObeysList r ss
  | [] => trivial
  | s :: ss => ⟨Spec.obeys_of_lax h s, Spec.obeysList_of_lax h ss⟩

theorem GenDecl.obeys_of_lax (h : r.Lax) : ∀ d : GenDecl, d.Obeys r
  | .mk _ _ specs => ⟨fun _ => h.values .., fun _ => h.values .., Spec.obeysList_of_lax h specs⟩

theorem CaseClause.obeys_of_lax (h : r.Lax) : ∀ c : CaseClause, c.Obeys r
  | .mk values body => ⟨Expr.obeysList_of_lax h values, Stmt.obeysList_of_lax h body⟩

theorem CaseClause.obeysList_of_lax (h : r.Lax) :
    ∀ cs : List CaseClause, CaseClause.ObeysList r cs
  | [] => trivial
  | c :: cs => ⟨CaseClause.obeys_of_lax h c, CaseClause.obeysList_of_lax h cs⟩

theorem Stmt.obeys_of_lax (h : r.Lax) : ∀ s : Stmt, s.Obeys r
  | .decl d => GenDecl.obeys_of_lax h d
  | .labeled _ s => Stmt.obeys_of_lax h s
  | .expr e | .incDec e _ => Expr.obeys_of_lax h e
  | .assign targets _ values =>
    ⟨Expr.obeysList_of_lax h targets, Expr.obeysList_of_lax h values⟩
  | .go call => Expr.obeys_of_lax h call
  | .return values => ⟨fun _ => h.returns, Expr.obeysList_of_lax h values⟩
  | .block body => Stmt.obeysList_of_lax h body
  | .ifElse init cond body alternative =>
    ⟨Stmt.obeysOption_of_lax h init, Expr.obeys_of_lax h cond, Stmt.obeysList_of_lax h body,
      Stmt.obeysOption_of_lax h alternative⟩
  | .switch init tag cases =>
    ⟨Stmt.obeysOption_of_lax h init, Expr.obeysOption_of_lax h tag,
      CaseClause.obeysList_of_lax h cases⟩
  | .for init cond post body =>
    ⟨Stmt.obeysOption_of_lax h init, Expr.obeysOption_of_lax h cond,
      Stmt.obeysOption_of_lax h post, Stmt.obeysList_of_lax h body⟩
  | .range _ _ _ iterable body => ⟨Expr.obeys_of_lax h iterable, Stmt.obeysList_of_lax h body⟩
  | .empty | .defer _ | .branch .. | .unsupported _ => trivial

theorem Stmt.obeysOption_of_lax (h : r.Lax) : ∀ o : Option Stmt, Stmt.ObeysOption r o
  | none => trivial
  | some s => Stmt.obeys_of_lax h s

theorem Stmt.obeysList_of_lax (h : r.Lax) : ∀ ss : List Stmt, Stmt.ObeysList r ss
  | [] => trivial
  | s :: ss => ⟨Stmt.obeys_of_lax h s, Stmt.obeysList_of_lax h ss⟩

end

theorem FuncDecl.obeys_of_lax (h : r.Lax) (d : FuncDecl) : d.Obeys r :=
  fun body _ => Stmt.obeysList_of_lax h body

theorem Decl.obeys_of_lax (h : r.Lax) (d : Decl) : d.Obeys r := by
  cases d with
  | func d => exact FuncDecl.obeys_of_lax h d
  | gen d => exact GenDecl.obeys_of_lax h d

end GoToJava.Go

namespace GoToJava

open Go (Expr Rules)

/-- All expressions that a task will convert keep the rules. -/
def Task.Obeys (r : Rules) : Task → Prop
  | .typeName .. | .declared .. => True
  | .conformance .. => r.returns
  | .rangeHeader loop | .rangeBindings loop => loop.iterable.Obeys r
  | .elementUpdate base index update =>
    base.Obeys r ∧ index.Obeys r ∧
      match update with
      | .set value | .compound _ value => value.Obeys r
      | .step _ => True
  | .element base index => base.Obeys r ∧ index.Obeys r
  | .slice base low high => base.Obeys r ∧ Expr.ObeysOption r low ∧ Expr.ObeysOption r high
  | .length value => value.Obeys r

theorem Task.obeys_of_lax {r : Rules} (h : r.Lax) (t : Task) : t.Obeys r := by
  have he := fun e => Expr.obeys_of_lax h e
  have ho := fun o => Expr.obeysOption_of_lax h o
  cases t with
  | elementUpdate base index update =>
    refine ⟨he _, he _, ?_⟩
    cases update with
    | set value => exact he _
    | compound op value => exact he _
    | step up => trivial
  | slice base low high => exact ⟨he _, ho _, ho _⟩
  | element base index => exact ⟨he _, he _⟩
  | rangeHeader loop => exact he _
  | rangeBindings loop => exact he _
  | length value => exact he _
  | conformance value declared => exact h.returns
  | _ => trivial

end GoToJava
