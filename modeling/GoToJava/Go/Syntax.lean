/-!
Syntax trees of Go source files. Types and values share one kind of expression, because Go admits
both in the same places: `make([]int, 3)`, `[]byte(s)`, and the types of composite literals.
-/

namespace GoToJava.Go

inductive LitKind where
  | int
  | float
  | imag
  | char
  | string
  | raw
  deriving DecidableEq, Repr, Inhabited

inductive UnaryOp where
  | pos
  | neg
  | not
  | bitNot
  | addr
  | recv
  deriving DecidableEq, Repr, Inhabited

inductive BinaryOp where
  | add
  | sub
  | mul
  | div
  | rem
  | bitAnd
  | bitOr
  | bitXor
  | shl
  | shr
  | andNot
  | and
  | or
  | eq
  | ne
  | lt
  | le
  | gt
  | ge
  deriving DecidableEq, Repr, Inhabited

inductive AssignOp where
  | assign
  | define
  /-- The update by a binary operator, such as `+=`. -/
  | compound (op : BinaryOp)
  deriving DecidableEq, Repr, Inhabited

inductive BranchKind where
  | break
  | continue
  | goto
  | fallthrough
  deriving DecidableEq, Repr, Inhabited

inductive GenKind where
  | var
  | const
  | type
  deriving DecidableEq, Repr, Inhabited

mutual

/-- A value or a type. Literals keep their source text. -/
inductive Expr where
  | ident (name : String)
  | lit (kind : LitKind) (text : String)
  /-- A composite literal; the type of an inner one may be left out. -/
  | composite (type : Option Expr) (elements : List Expr)
  | funcLit (sig : Signature) (body : List Stmt)
  | paren (inner : Expr)
  | selector (base : Expr) (field : String)
  | index (base index : Expr)
  | slice (base : Expr) (low high : Option Expr)
  /-- The assertion `x.(T)`; the type is absent in `x.(type)`. -/
  | assert (base : Expr) (type : Option Expr)
  /-- A call; `spread` says that `...` follows the last argument. -/
  | call (callee : Expr) (args : List Expr) (spread : Bool)
  /-- A pointer type, or what a pointer points to. -/
  | star (inner : Expr)
  | unary (op : UnaryOp) (operand : Expr)
  | binary (left : Expr) (op : BinaryOp) (right : Expr)
  | keyValue (key value : Expr)
  /-- An array type, or a slice type when it has no length. -/
  | arrayType (length : Option Expr) (element : Expr)
  | mapType (key value : Expr)
  | funcType (sig : Signature)
  | structType (fields : List Field)
  | interfaceType (members : List Field)
  /-- The type of a variadic parameter. -/
  | ellipsis (element : Expr)
  | chanType (element : Expr)
  | unsupported (kind : String)

/-- Parameters, results, struct fields or interface members of one type. Embedded ones have no
names. -/
inductive Field where
  | mk (names : List String) (type : Expr)

/-- The parameters and the results of a function. -/
inductive Signature where
  | mk (params results : List Field)

/-- One line of a declaration. -/
inductive Spec where
  | value (names : List String) (type : Option Expr) (values : List Expr)
  | type (name : String) (type : Expr) (isAlias : Bool)

/-- A declaration of variables, constants or types; `grouped` says that it has parentheses. -/
inductive GenDecl where
  | mk (kind : GenKind) (grouped : Bool) (specs : List Spec)

/-- A case of a switch. The default case has no values. -/
inductive CaseClause where
  | mk (values : List Expr) (body : List Stmt)

inductive Stmt where
  | decl (d : GenDecl)
  | empty
  | labeled (label : String) (stmt : Stmt)
  | expr (e : Expr)
  | incDec (target : Expr) (inc : Bool)
  | assign (targets : List Expr) (op : AssignOp) (values : List Expr)
  | go (call : Expr)
  | defer (call : Expr)
  | return (values : List Expr)
  | branch (kind : BranchKind) (label : Option String)
  | block (body : List Stmt)
  | ifElse (init : Option Stmt) (cond : Expr) (body : List Stmt) (alternative : Option Stmt)
  | switch (init : Option Stmt) (tag : Option Expr) (cases : List CaseClause)
  | for (init : Option Stmt) (cond : Option Expr) (post : Option Stmt) (body : List Stmt)
  | range (key value : Option Expr) (define : Bool) (iterable : Expr) (body : List Stmt)
  | unsupported (kind : String)

end

deriving instance Inhabited for Expr
deriving instance Inhabited for Field
deriving instance Inhabited for Signature
deriving instance Inhabited for Spec
deriving instance Inhabited for GenDecl
deriving instance Inhabited for CaseClause
deriving instance Inhabited for Stmt

structure FuncDecl where
  receiver : Option Field
  name : String
  sig : Signature
  body : Option (List Stmt)
  deriving Inhabited

inductive Decl where
  | func (d : FuncDecl)
  | gen (d : GenDecl)
  deriving Inhabited

/-- An import of a package, under a name of its own if it has one. -/
structure ImportSpec where
  name : Option String
  path : String
  deriving DecidableEq, Repr, Inhabited

structure File where
  package : String
  imports : List ImportSpec
  decls : List Decl
  deriving Inhabited

namespace Field

def names : Field → List String
  | mk ns _ => ns

def type : Field → Expr
  | mk _ t => t

def isEmbedded (f : Field) : Bool := f.names.isEmpty

end Field

namespace Signature

def params : Signature → List Field
  | mk ps _ => ps

def results : Signature → List Field
  | mk _ rs => rs

/-- The type of the first result. -/
def firstResult (s : Signature) : Option Expr := s.results.head?.map Field.type

end Signature

namespace GenDecl

def kind : GenDecl → GenKind
  | mk k _ _ => k

def grouped : GenDecl → Bool
  | mk _ g _ => g

def specs : GenDecl → List Spec
  | mk _ _ ss => ss

end GenDecl

namespace CaseClause

def values : CaseClause → List Expr
  | mk vs _ => vs

def body : CaseClause → List Stmt
  | mk _ b => b

end CaseClause

namespace UnaryOp

def ofToken? : String → Option UnaryOp
  | "+" => some pos
  | "-" => some neg
  | "!" => some not
  | "^" => some bitNot
  | "&" => some addr
  | "<-" => some recv
  | _ => none

end UnaryOp

namespace BinaryOp

def ofToken? : String → Option BinaryOp
  | "+" => some add
  | "-" => some sub
  | "*" => some mul
  | "/" => some div
  | "%" => some rem
  | "&" => some bitAnd
  | "|" => some bitOr
  | "^" => some bitXor
  | "<<" => some shl
  | ">>" => some shr
  | "&^" => some andNot
  | "&&" => some and
  | "||" => some or
  | "==" => some eq
  | "!=" => some ne
  | "<" => some lt
  | "<=" => some le
  | ">" => some gt
  | ">=" => some ge
  | _ => none

/-- The spelling in Go. -/
def token : BinaryOp → String
  | add => "+"
  | sub => "-"
  | mul => "*"
  | div => "/"
  | rem => "%"
  | bitAnd => "&"
  | bitOr => "|"
  | bitXor => "^"
  | shl => "<<"
  | shr => ">>"
  | andNot => "&^"
  | and => "&&"
  | or => "||"
  | eq => "=="
  | ne => "!="
  | lt => "<"
  | le => "<="
  | gt => ">"
  | ge => ">="

/-- Operators whose result is a truth value whatever the operands are. -/
def isBoolean : BinaryOp → Bool
  | and | or | eq | ne | lt | le | gt | ge => true
  | _ => false

end BinaryOp

namespace Expr

def ident? : Expr → Option String
  | ident n => some n
  | _ => none

/-- An integer literal. -/
def intLit (text : String) : Expr := lit .int text

/-- The type without pointers and parentheses around it. -/
def stripPointer : Expr → Expr
  | star e => stripPointer e
  | paren e => stripPointer e
  | e => e

/-- Expressions that can only be types. -/
def isTypeExpr : Expr → Bool
  | arrayType .. | mapType .. | funcType .. | structType .. | interfaceType .. | ellipsis ..
  | chanType .. => true
  | _ => false

def isLit : Expr → Bool
  | lit .. => true
  | _ => false

def isCall : Expr → Bool
  | call .. => true
  | _ => false

/-- The type of a name with at most one dot that counts, such as `time.Time`. -/
def ofTypeName (name : String) : Expr :=
  match name.toList.span (· ≠ '.') with
  | (package, '.' :: type) => selector (ident (String.ofList package)) (String.ofList type)
  | _ => ident name

end Expr

end GoToJava.Go
