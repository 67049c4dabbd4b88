import GoToJava.Proofs.Script.Parallel

/-!
Types and inference with a counter, which goes up when a name is followed or a question is asked and
down when that is done. Nothing else keeps what runs in a circle from being followed for ever. How
far the work may nest is bounded from outside.
-/

namespace GoToJava

open Emit

open Go (Expr Field Signature title)

/-- How many names and questions are being followed, and the most that ever were at a time. -/
structure Gauge where
  level : Nat
  peak : Nat

/-- Writing with a gauge. There is no result if the work nests too far. -/
abbrev Counted := ReaderT Place (StateT Desk (StateT Gauge Option))

namespace Counted

variable {α : Type}

/-! ## The counter -/

/-- Writing that has nothing to do with the counter. -/
def lift (x : Emit α) : Counted α := fun place desk gauge => some (x place desk, gauge)

def endless : Counted α := fun _ _ _ => none

def level : Counted Nat := fun _ desk gauge => some ((gauge.level, desk), gauge)

def raise : Counted Unit := fun _ desk gauge =>
  some (((), desk), ⟨gauge.level + 1, max gauge.peak (gauge.level + 1)⟩)

def lower : Counted Unit := fun _ desk gauge =>
  some (((), desk), { gauge with level := gauge.level - 1 })

/-- Writes at another cursor. This place owes afterwards what it owed before. -/
def elsewhere (cursor : Cursor) (text : Counted α) : Counted α := fun _ desk gauge =>
  (text cursor.place { desk with owed := cursor.owed } gauge).map fun ((a, after), gauge) =>
    ((a, { after with owed := desk.owed }), gauge)

/-- Writes into a draft of its own, and gives the text back. -/
def inspect (text : Counted α) : Counted (α × String) := do
  let place ← read
  let p ← lift program
  lift (modifyProgram fun p => { p with drafts := p.drafts.new })
  let a ← elsewhere (scratchCursor place p) text
  return (a, (← lift program).drafts.text p.drafts.next)

/-- Writes the text of a task at once if that can be done, and else leaves a hole for it. -/
def defer (task : Task) (now : Counted Unit) : Counted Unit := do
  if ← lift (isEager task.direct) then now else lift (leave task)

def separated (separator : String) : List (Counted Unit) → Counted Unit
  | [] => pure ()
  | [text] => text
  | text :: rest => do
    text
    lift (print separator)
    separated separator rest

/-! ## Types -/

section

variable (follow : Expr → Style → Counted Unit)

/-- A name that may still be declared is put off. -/
def orLater (type : Expr) (style : Style) (now : Counted Unit) : Counted Unit :=
  match type with
  | .ident name => if Java.isPrimitive name then now else defer (.typeName type style) now
  | _ => now

/-- A name is followed as long as the counter allows it. -/
def named (name : String) (style : Style) : Counted Unit := do
  let plain : Counted Unit := lift do
    refer (title name)
    print (title name)
  match Java.primitive? name style.boxed with
  | some java => lift (print java)
  | none =>
    match (← lift program).typeNames.get? (title name) with
    | some target =>
      if (← level) < Program.maxDepth then
        raise
        follow target style
        lower
      else plain
    | none => plain

def ofArray (style : Style) (mark : String) (e : Style → Counted Unit) : Counted Unit := do
  if style.elementOnly then e style.whole
  else
    e style.element
    lift (print mark)

def map (style : Style) (key value : Counted Unit) : Counted Unit := do
  if style.entry then
    lift (need .map)
    lift (print "Map.Entry<")
  else if style.implementation then
    lift (need .hashMap)
    lift (need .map)
    lift (print "HashMap<")
  else
    lift (need .map)
    lift (print "Map<")
  key
  lift (print ", ")
  value
  lift (print ">")
  if style.entry then lift (print " entry")

def ofMap (style : Style) (key value : Style → Counted Unit) : Counted Unit :=
  if style.elementOnly && !style.entry then value style.whole
  else map style (key style.argument) (value style.argument)

def reference (param result : Option (Counted Unit)) : Counted Unit := do
  lift (need .function)
  lift (print "Function<")
  param.getD (lift (print "Void"))
  lift (print ", ")
  result.getD (lift (print "Void"))
  lift (print ">")

def signature (params : List (Counted Unit)) (result : Option (Counted Unit)) : Counted Unit := do
  result.getD (lift (print "void"))
  lift (print " (")
  separated ", " params
  lift (print ")")

mutual

/-- Writes a type at once, as far as its own name goes. -/
def now (style : Style) : Expr → Counted Unit
  | .ident name => named follow name style
  | .paren e => orLater e style (now style e)
  | .star e => orLater e style (now style e)
  | .arrayType _ e => ofArray style "[]" fun style => orLater e style (now style e)
  | .ellipsis e => ofArray style "..." fun style => orLater e style (now style e)
  | .mapType k v =>
    ofMap style (fun style => orLater k style (now style k)) fun style =>
      orLater v style (now style v)
  | .selector (.ident package) name => lift (TypeText.qualified package name style)
  | .selector base name => do
    orLater base style (now style base)
    lift (print ".")
    lift (print name)
  | .funcType sig => ofSignature style sig
  | _ => lift (print "Object")

def ofSignature (style : Style) : Signature → Counted Unit
  | .mk params results =>
    if style.reference then
      let style := { style.argument with reference := true }
      reference ((ofFields style params).head?.map (·.2)) ((ofFields style results).head?.map (·.2))
    else
      signature ((ofFields .references params).flatMap fun (n, text) => List.replicate n text)
        ((ofFields {} results).head?.map (·.2))

def ofFields (style : Style) : List Field → List (Nat × Counted Unit)
  | [] => []
  | .mk names type :: rest =>
    (max names.length 1, orLater type style (now style type)) :: ofFields style rest

end

end

/-- Writes a type, with at most `nesting` names followed one in the other. -/
def writeType : Nat → Style → Expr → Counted Unit
  | 0, _, _ => endless
  | nesting + 1, style, type =>
    orLater type style (now (fun target style => writeType nesting style target) style type)

/-! ## Inference -/

/-- Writes a type and answers the Go type. -/
abbrev Answer := Style → Expr → Counted (Option Expr)

def unknown : Counted (Option Expr) := lift Inference.unknown

def source (again : Answer) (e : Expr) : Counted (Option Expr) := do
  let (type, _) ← inspect (again .atOnce e)
  let p ← lift program
  return type.map fun t => p.unalias t.stripPointer

def asked (p : Program) (again : Answer) : Option (Option Nat × Expr) → Counted (Option Expr)
  | none => return none
  | some (unit, e) => do
    let (type, _) ← withReader (Inference.abroad p unit) (inspect (again .atOnce e))
    return type

def run (again known : Answer) (style : Style) : Inference.Move → Counted (Option Expr)
  | .unknown => unknown
  | .known type => known style type
  | .again e => again style e

/-- One step of inference. -/
def step (again known : Answer) (style : Style) (e : Expr) : Counted (Option Expr) := do
  let p ← lift program
  let answer ← asked p again (Inference.question p (← read) e)
  run again known style (Inference.move (← lift program) (← read) answer e)

/-- Writes a type and answers it, with names followed at most `nesting` deep. -/
def known (nesting : Nat) : Answer := fun style type => do
  writeType nesting style type
  let p ← lift program
  return some (if style.elementOnly then Inference.held p type else type)

/-- Writes the type of an expression and answers it, with at most `nesting` questions and names
followed one in the other. A question is asked as long as the counter allows it. -/
def infer : Nat → Answer
  | 0, _, _ => endless
  | nesting + 1, style, e => do
    if (← level) < Program.maxDepth then
      raise
      let type ← step (infer nesting) (known nesting) style e
      lower
      return type
    else unknown

end Counted

end GoToJava
