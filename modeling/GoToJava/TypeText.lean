import GoToJava.Emit

/-!
Types in Java. Basic types have names of their own; a named type that is neither a struct nor an
interface is written as what it stands for; other names are classes.
-/

namespace GoToJava

open Go (Expr Field Signature title)
open Emit

namespace Style

/-- How the elements of an array are written. -/
def element (s : Style) : Style := { s with entry := false, implementation := false }

/-- How what an array or a map holds is written in place of it. -/
def whole (s : Style) : Style := { s with elementOnly := false }

/-- How a type between angle brackets is written. -/
def argument (s : Style) : Style := { s.element with boxed := true, elementOnly := false }

end Style

namespace TypeText

/-- Writes what a named type stands for, as long as names may still be followed. -/
abbrev Follow := Option (Expr → Style → Emit Unit)

/-- A name that may still be declared is put off. -/
def orLater (type : Expr) (style : Style) (now : Emit Unit) : Emit Unit :=
  match type with
  | .ident name => if Java.isPrimitive name then now else defer (.typeName type style) now
  | _ => now

def named (follow : Follow) (name : String) (style : Style) : Emit Unit := do
  match Java.primitive? name style.boxed with
  | some java => print java
  | none =>
    match (← program).typeNames.get? (title name), follow with
    | some target, some follow => follow target style
    | _, _ =>
      refer (title name)
      print (title name)

/-- An array, with a mark after its elements. -/
def ofArray (style : Style) (mark : String) (e : Style → Emit Unit) : Emit Unit := do
  if style.elementOnly then e style.whole
  else
    e style.element
    print mark

def map (style : Style) (key value : Emit Unit) : Emit Unit := do
  if style.entry then
    need .map
    print "Map.Entry<"
  else if style.implementation then
    need .hashMap
    need .map
    print "HashMap<"
  else
    need .map
    print "Map<"
  key
  print ", "
  value
  print ">"
  if style.entry then print " entry"

def ofMap (style : Style) (key value : Style → Emit Unit) : Emit Unit :=
  if style.elementOnly && !style.entry then value style.whole
  else map style (key style.argument) (value style.argument)

/-- A type of another package. -/
def qualified (package name : String) (style : Style) : Emit Unit := do
  let full := package ++ "." ++ name
  match Java.types.get? full with
  | some form =>
    match form.needs with
    | some i =>
      need i
      print form.name
    | none => print (if style.boxed then Java.boxed form.name else form.name)
  | none =>
    if ((← program).importName (← read) (title package)).isSome then
      refer name
      print name
    else print full

/-- A reference to a function. Without a parameter or a result, `Void` stands in its place. -/
def reference (param result : Option (Emit Unit)) : Emit Unit := do
  need .function
  print "Function<"
  param.getD (print "Void")
  print ", "
  result.getD (print "Void")
  print ">"

/-- The bare signature of a function. -/
def signature (params : List (Emit Unit)) (result : Option (Emit Unit)) : Emit Unit := do
  result.getD (print "void")
  print " ("
  separated ", " params
  print ")"

mutual

/-- Writes a type at once, as far as its own name goes. -/
def now (follow : Follow) (style : Style) : Expr → Emit Unit
  | .ident name => named follow name style
  | .paren e => orLater e style (now follow style e)
  | .star e => orLater e style (now follow style e)
  | .arrayType _ e => ofArray style "[]" fun style => orLater e style (now follow style e)
  | .ellipsis e => ofArray style "..." fun style => orLater e style (now follow style e)
  | .mapType k v =>
    ofMap style (fun style => orLater k style (now follow style k))
      fun style => orLater v style (now follow style v)
  | .selector (.ident package) name => qualified package name style
  | .selector base name => do
    orLater base style (now follow style base)
    print "."
    print name
  | .funcType sig => ofSignature follow style sig
  | _ => print "Object"

def ofSignature (follow : Follow) (style : Style) : Signature → Emit Unit
  | .mk params results =>
    if style.reference then
      let style := { style.argument with reference := true }
      reference ((ofFields follow style params).head?.map (·.2))
        ((ofFields follow style results).head?.map (·.2))
    else
      signature
        ((ofFields follow .references params).flatMap fun (n, text) => List.replicate n text)
        ((ofFields follow {} results).head?.map (·.2))

/-- The types of some fields, with the number of times each stands in a list of parameters. -/
def ofFields (follow : Follow) (style : Style) : List Field → List (Nat × Emit Unit)
  | [] => []
  | .mk names type :: rest =>
    (max names.length 1, orLater type style (now follow style type)) :: ofFields follow style rest

end

end TypeText

/-- Writes a type, following names at most `room` times. -/
def writeTypeAt : Nat → Style → Expr → Emit Unit
  | 0, style, type => TypeText.orLater type style (TypeText.now none style type)
  | room + 1, style, type =>
    TypeText.orLater type style
      (TypeText.now (some fun target style => writeTypeAt room style target) style type)

/-- Writes a type. -/
def writeType (style : Style) (type : Expr) : Emit Unit :=
  writeTypeAt Program.maxDepth style type

/-- Writes a type whose name is not put off any longer. -/
def writeTypeNow (style : Style) (type : Expr) : Emit Unit :=
  TypeText.now (some fun target style => writeTypeAt (Program.maxDepth - 1) style target) style type

end GoToJava
