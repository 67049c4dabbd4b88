import GoToJava.TypeText

/-!
Types of expressions. Inference writes the Java type of an expression and answers its Go type; a
type that it cannot tell is written as `Object`. Each step to another expression takes one from a
bound, so that variables bound in a circle do no harm.
-/

namespace GoToJava

open Go (Expr LitKind title)
open Emit

namespace Inference

/-- Writes a type and answers the Go type. -/
abbrev Answer := Style → Expr → Emit (Option Expr)

def unknown : Emit (Option Expr) := do
  print "Object"
  return none

def litType : LitKind → String
  | .int => "int"
  | .float | .imag => "float64"
  | .char => "rune"
  | .string | .raw => "string"

/-- The Go type of an expression without the names it goes by. Nothing is written. -/
def source (again : Answer) (e : Expr) : Emit (Option Expr) := do
  let (type, _) ← inspect (again .atOnce e)
  let p ← program
  return type.map fun t => p.unalias t.stripPointer

/-- The type of an element. -/
def elementType : Option Expr → Option Expr
  | some (.mapType _ value) => some value
  | some (.arrayType _ e) => some e
  | some (.ellipsis e) => some e
  | some (.ident "string") => some (.ident "byte")
  | _ => none

/-- What an array or a map holds. All other types are their own. -/
def held (p : Program) (type : Expr) : Expr :=
  match p.unalias type.stripPointer with
  | .arrayType _ e | .ellipsis e | .mapType _ e => e
  | other => other

/-- What a step of inference comes to. -/
inductive Move where
  | unknown
  | known (type : Expr)
  /-- The type is that of another expression. -/
  | again (e : Expr)

namespace Move

def of : Option Expr → Move
  | some type => .known type
  | none => .unknown

def run (again known : Answer) (style : Style) : Move → Emit (Option Expr)
  | .unknown => Inference.unknown
  | .known type => known style type
  | .again e => again style e

end Move

/-- A type of another package as it is named here. -/
def foreignType (package : String) (type : Expr) : Expr :=
  match type.stripPointer with
  | .ident name =>
    let full := package ++ "." ++ name
    if Java.types.contains full then .ofTypeName full else type
  | _ => type

/-- The result of a function that is built in. -/
def builtin? : String → List Expr → Option Move
  | "len", _ | "cap", _ | "copy", _ => some (.known (.ident "int"))
  | "make", type :: _ | "new", type :: _ => some (.known type)
  | "make", [] | "new", [] | "append", [] => some .unknown
  | "append", slice :: _ => some (.again slice)
  | _, _ => none

/-- The result of a call that Java has a form for. -/
def moveTabled (name : String) : Move :=
  .of (((Java.calls.get? name).bind (·.result)).map .ofTypeName)

section

variable (p : Program) (place : Place)

/-- The same place, or one in a unit of another package. -/
def abroad (unit : Option Nat) (place : Place) : Place :=
  match unit with
  | none => place
  | some unit => { place with unit, scope := (p.unit unit).scope, receiver := none, result := none }

/-- The expression that a step has to know the type of, and the unit it is looked at in. A variable
of an imported package that has no type has that of its initial value. -/
def question : Expr → Option (Option Nat × Expr)
  | .index base _ => some (none, base)
  | .selector (.ident package) name =>
    if p.isVar place package then none
    else
      (p.importedUnit place package).bind fun unit =>
        let symbols := (p.unit unit).symbols
        if (symbols.vars.get? name).isSome then none
        else (symbols.values.get? name).map fun value => (some unit, value)
  | .call callee _ _ =>
    if p.isTypeCallee place callee then none
    else
      match callee with
      | .selector (.ident name) _ => if p.isVar place name then some (none, .ident name) else none
      | .selector base _ => some (none, base)
      | _ => none
  | _ => none

/-- The type that was asked for, without the names it goes by. -/
def source? (answer : Option Expr) : Option Expr := answer.map fun t => p.unalias t.stripPointer

def moveIdent (name : String) : Move :=
  if name == "true" || name == "false" then .known (.ident "bool")
  else if name == "iota" then .known (.ident "int")
  else if name == "nil" then .unknown
  else
    match p.scopes.var place.scope name with
    | none => .unknown
    | some bound =>
      match bound with
      | .ident inner => if !p.isVar place inner || inner == name then .known bound else .again bound
      | .selector _ _ | .star _ => .known bound
      | _ => if bound.isTypeExpr then .known bound else .again bound

/-- A variable of an imported package, or a field of the receiver. -/
def moveSelector (answer : Option Expr) (base : Expr) (field : String) : Move :=
  match base with
  | .ident name =>
    if !p.isVar place name then
      match (p.importedUnit place name).bind fun unit =>
          (p.unit unit).symbols.vars.get? field with
      | some type => .known (foreignType name type)
      | none => .of (answer.map (foreignType name))
    else
      match place.receiver with
      | some r => if r.name == name then .of ((p.classAt r.cls).fields.get? field) else .unknown
      | none => .unknown
  | _ => .unknown

/-- The result of a method of a value. -/
def moveMethod (answer : Option Expr) (name : String) : Move :=
  .of ((source? p answer).bind fun type =>
    ((p.classOf? type).bind fun c => (p.classAt c).methods.get? name)
      <|> ((p.unitOf? type).bind fun u => (p.unit u).funcs.get? name))

/-- The result of a call. -/
def moveCall (answer : Option Expr) (callee : Expr) (args : List Expr) : Move :=
  if p.isTypeCallee place callee then .known callee
  else
    match callee with
    | .ident name =>
      if p.isVar place name then .unknown
      else
        match builtin? name args, p.localFunc? place name with
        | some move, _ => move
        | none, some result => .known result
        | none, none => moveTabled name
    | .selector (.ident package) name =>
      if p.isVar place package then moveMethod p answer name
      else
        match p.importedFunc? place package name with
        | some result => .known (foreignType package result)
        | none => moveTabled (package ++ "." ++ name)
    | .selector _ name => moveMethod p answer name
    | _ => .unknown

/-- One step of inference, given the answer to its question. -/
def move (answer : Option Expr) : Expr → Move
  | .lit kind _ => .known (.ident (litType kind))
  | .paren e => .again e
  | .star e => .again e
  | .unary .not _ => .known (.ident "bool")
  | .unary _ e => .again e
  | .binary l op r =>
    if op.isBoolean then .known (.ident "bool")
    else if l.isLit && !r.isLit && op != .shl && op != .shr then .again r
    else .again l
  | .ident name => moveIdent p place name
  | .index _ _ => .of (elementType (source? p answer))
  | .slice base _ _ => .again base
  | .call callee args _ => moveCall p place answer callee args
  | .selector base field => moveSelector p place answer base field
  | .composite (some type) _ => .known type
  | .assert _ (some type) => .known type
  | .funcLit sig _ => .known (.funcType sig)
  | .keyValue _ value => .again value
  | e => if e.isTypeExpr then .known e else .unknown

/-- The answer to a question, if there is one. Nothing is written. -/
def asked (again : Answer) : Option (Option Nat × Expr) → Emit (Option Expr)
  | none => return none
  | some (unit, e) => do
    let (type, _) ← withReader (abroad p unit) (inspect (again .atOnce e))
    return type

end

/-- One step of inference. -/
def step (again known : Answer) (style : Style) (e : Expr) : Emit (Option Expr) := do
  let p ← program
  let answer ← asked p again (question p (← read) e)
  (move (← program) (← read) answer e).run again known style

end Inference

/-- Writes a type that is known, and answers it. -/
def Inference.knownAt (room : Nat) : Inference.Answer := fun style type => do
  writeTypeAt room style type
  let p ← program
  return some (if style.elementOnly then held p type else type)

/-- Writes the type of an expression in at most `room` steps, and answers it. -/
def inferAt : Nat → Style → Expr → Emit (Option Expr)
  | 0, _, _ => Inference.unknown
  | room + 1, style, e => Inference.step (inferAt room) (Inference.knownAt room) style e

/-- Writes the type of an expression, and answers it. -/
def infer (style : Style) (e : Expr) : Emit (Option Expr) := inferAt Program.maxDepth style e

/-- The Go type of an expression without the names it goes by. Nothing is written. -/
def sourceType (e : Expr) : Emit (Option Expr) := Inference.source infer e

end GoToJava
