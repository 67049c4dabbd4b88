import GoToJava.Go.Grammar
import GoToJava.Go.Syntax

/-!
Source files as syntax trees. Comments, struct tags, type parameters and the capacity of a slice
expression leave nothing in the tree, and a generic type is the type it was made from.
-/

namespace GoToJava.Go

open Grammar (Node)

/-- Why a text is no source file. -/
inductive ReadError where
  | syntaxError
  | missingPackage
  deriving DecidableEq, Repr, Inhabited

def ReadError.message : ReadError → String
  | syntaxError => "parse error: syntax error in source"
  | missingPackage => "parse error: missing package clause"

namespace Reader

def texts (nodes : List Node) : List String := nodes.map (·.text)

/-- The text without the quotes around it. -/
def unquote (text : String) : String :=
  let isQuote (c : Char) : Bool := c == '\"' || c == '\x60'
  String.ofList
    (((text.toList.dropWhile isQuote).reverse.dropWhile isQuote).reverse)

/-- The operator of an assignment, whose text ends with an equals sign. -/
def assignOp (text : String) : AssignOp :=
  if text == "=" then .assign
  else
    match BinaryOp.ofToken? (String.ofList (text.toList.reverse.dropWhile (· == '=')).reverse) with
    | some op => .compound op
    | none => .assign

def isDeclaration (kind : String) : Bool :=
  kind == "var_declaration" || kind == "const_declaration" || kind == "type_declaration"

def genKind : String → GenKind
  | "var_declaration" => .var
  | "const_declaration" => .const
  | _ => .type

mutual

/-- The expression of a node. `depth` bounds how deep nodes are nested. -/
def expr (depth : Nat) (n : Node) : Expr :=
  match depth with
  | 0 => .unsupported n.kind
  | depth + 1 =>
    let child : Option Node → Expr
      | some c => expr depth c
      | none => .unsupported n.kind
    let part (name : String) : Expr := child (n.field? name)
    let part? (name : String) : Option Expr := (n.field? name).map (expr depth)
    let fieldText (name : String) : String := ((n.field? name).map (·.text)).getD ""
    match n.kind with
    | "identifier" | "field_identifier" | "package_identifier" | "type_identifier"
    | "true" | "false" | "nil" | "iota" => .ident n.text
    | "int_literal" => .lit .int n.text
    | "float_literal" => .lit .float n.text
    | "imaginary_literal" => .lit .imag n.text
    | "rune_literal" => .lit .char n.text
    | "interpreted_string_literal" => .lit .string n.text
    | "raw_string_literal" => .lit .raw n.text
    | "composite_literal" =>
      .composite (some (part "type")) <|
        match n.field? "body" with
        | some body => elements depth body
        | none => []
    | "literal_value" => .composite none (elements depth n)
    | "func_literal" => .funcLit (signature depth n) <|
        match n.field? "body" with
        | some body => block depth body
        | none => []
    | "parenthesized_expression" => .paren (child n.namedChildren.head?)
    | "call_expression" => call depth n (part "function")
    | "type_conversion_expression" => .call (part "type") [part "operand"] false
    | "selector_expression" => .selector (part "operand") (fieldText "field")
    | "index_expression" => .index (part "operand") (part "index")
    | "slice_expression" => .slice (part "operand") (part? "start") (part? "end")
    | "type_assertion_expression" => .assert (part "operand") (part? "type")
    | "unary_expression" =>
      match UnaryOp.ofToken? (fieldText "operator") with
      | some op => .unary op (part "operand")
      | none => .star (part "operand")
    | "binary_expression" =>
      match BinaryOp.ofToken? (fieldText "operator") with
      | some op => .binary (part "left") op (part "right")
      | none => .unsupported n.kind
    | "qualified_type" => .selector (.ident (fieldText "package")) (fieldText "name")
    | "pointer_type" => .star (child n.namedChildren.head?)
    | "slice_type" | "implicit_length_array_type" => .arrayType none (part "element")
    | "array_type" => .arrayType (some (part "length")) (part "element")
    | "map_type" => .mapType (part "key") (part "value")
    | "channel_type" => .chanType (part "value")
    | "function_type" => .funcType (signature depth n)
    | "struct_type" => .structType (structFields depth n)
    | "interface_type" => .interfaceType (members depth n)
    | "parenthesized_type" => child n.namedChildren.head?
    | "generic_type" => part "type"
    | kind => .unsupported kind

/-- A call with its arguments, which may be types in `new` and `make`. -/
def call (depth : Nat) (n : Node) (callee : Expr) : Expr :=
  match depth with
  | 0 => .unsupported n.kind
  | depth + 1 =>
    match n.field? "arguments" with
    | none => .call callee [] false
    | some list =>
      let args := list.namedChildren.map fun arg =>
        if arg.kind == "variadic_argument" then
          match arg.namedChildren.head? with
          | some inner => expr depth inner
          | none => .unsupported arg.kind
        else expr depth arg
      .call callee args
        (list.hasText "..." || list.namedChildren.any (·.kind == "variadic_argument"))

/-- The elements of a composite literal. -/
def elements (depth : Nat) (n : Node) : List Expr :=
  match depth with
  | 0 => []
  | depth + 1 => n.namedChildren.map (element depth)

def element (depth : Nat) (n : Node) : Expr :=
  match depth with
  | 0 => .unsupported n.kind
  | depth + 1 =>
    match n.kind, n.namedChildren with
    | "keyed_element", [key, value] => .keyValue (element depth key) (element depth value)
    | "literal_element", inner :: _ => expr depth inner
    | _, _ => expr depth n

/-- The parameters and results of a declaration, a literal or a type. -/
def signature (depth : Nat) (n : Node) : Signature :=
  match depth with
  | 0 => .mk [] []
  | depth + 1 =>
    let params := match n.field? "parameters" with
      | some list => parameters depth list
      | none => []
    let results := match n.field? "result" with
      | some r => if r.kind == "parameter_list" then parameters depth r else [.mk [] (expr depth r)]
      | none => []
    .mk params results

def parameters (depth : Nat) (n : Node) : List Field :=
  match depth with
  | 0 => []
  | depth + 1 => n.namedChildren.filterMap fun c =>
    let type := match c.field? "type" with
      | some t => expr depth t
      | none => .unsupported c.kind
    match c.kind with
    | "parameter_declaration" => some (.mk (texts (c.fields "name")) type)
    | "variadic_parameter_declaration" => some (.mk (texts (c.fields "name")) (.ellipsis type))
    | _ => none

def structFields (depth : Nat) (n : Node) : List Field :=
  match depth with
  | 0 => []
  | depth + 1 =>
    let declarations : List Node :=
      match n.namedChildren.find? (·.kind == "field_declaration_list") with
      | some list => list.namedChildren.filter (·.kind == "field_declaration")
      | none => []
    declarations.map fun d =>
      let type := match d.field? "type" with
        | some t => expr depth t
        | none => .unsupported d.kind
      let names := texts (d.fields "name")
      .mk names (if names.isEmpty && d.hasText "*" then .star type else type)

/-- The members of an interface. Of a union of types only the first counts. -/
def members (depth : Nat) (n : Node) : List Field :=
  match depth with
  | 0 => []
  | depth + 1 => n.namedChildren.filterMap fun c =>
    match c.kind with
    | "method_elem" =>
      some (.mk [((c.field? "name").map (·.text)).getD ""] (.funcType (signature depth c)))
    | "type_elem" => c.namedChildren.head?.map fun inner => .mk [] (expr depth inner)
    | _ => some (.mk [] (expr depth c))

def exprList (depth : Nat) (n : Node) : List Expr :=
  match depth with
  | 0 => []
  | depth + 1 =>
    if n.kind == "expression_list" then n.namedChildren.map (expr depth) else [expr depth n]

/-- The statements of a block or of the rest of a case. -/
def block (depth : Nat) (n : Node) : List Stmt :=
  match depth with
  | 0 => []
  | depth + 1 => statements depth n.namedChildren

def statements (depth : Nat) (nodes : List Node) : List Stmt :=
  match depth with
  | 0 => []
  | depth + 1 => nodes.flatMap fun n =>
    if n.kind == "statement_list" then statements depth n.namedChildren else [stmt depth n]

def stmt (depth : Nat) (n : Node) : Stmt :=
  match depth with
  | 0 => .unsupported n.kind
  | depth + 1 =>
    let operand (make : Expr → Stmt) : Stmt :=
      match n.namedChildren.head? with
      | some c => make (expr depth c)
      | none => .unsupported n.kind
    let list (name : String) : List Expr :=
      match n.field? name with
      | some c => exprList depth c
      | none => []
    let branch (kind : BranchKind) : Stmt :=
      .branch kind ((n.namedChildren.find? (·.kind == "label_name")).map (·.text))
    match n.kind with
    | "expression_statement" => operand .expr
    | "inc_statement" => operand (.incDec · true)
    | "dec_statement" => operand (.incDec · false)
    | "assignment_statement" =>
      .assign (list "left") (assignOp (((n.field? "operator").map (·.text)).getD "="))
        (list "right")
    | "short_var_declaration" => .assign (list "left") .define (list "right")
    | "labeled_statement" =>
      .labeled (((n.field? "label").map (·.text)).getD "") <|
        match n.namedChildren.drop 1 with
        | inner :: _ => stmt depth inner
        | [] => .empty
    | "break_statement" => branch .break
    | "continue_statement" => branch .continue
    | "goto_statement" => branch .goto
    | "fallthrough_statement" => .branch .fallthrough none
    | "return_statement" => .return <|
        match n.namedChildren.head? with
        | some c => exprList depth c
        | none => []
    | "go_statement" => operand .go
    | "defer_statement" => operand .defer
    | "block" => .block (block depth n)
    | "if_statement" => ifElse depth n
    | "for_statement" => loop depth n
    | "expression_switch_statement" => switch depth n
    | "var_declaration" | "const_declaration" | "type_declaration" => .decl (genDecl depth n)
    | "empty_statement" => .empty
    | kind => .unsupported kind

def ifElse (depth : Nat) (n : Node) : Stmt :=
  match depth with
  | 0 => .unsupported n.kind
  | depth + 1 =>
    let cond := match n.field? "condition" with
      | some c => expr depth c
      | none => .unsupported n.kind
    let body := match n.field? "consequence" with
      | some c => block depth c
      | none => []
    let alternative := (n.field? "alternative").map fun c =>
      if c.kind == "if_statement" then ifElse depth c else .block (block depth c)
    .ifElse ((n.field? "initializer").map (stmt depth)) cond body alternative

/-- A loop. What stands before its body tells which kind of loop it is. -/
def loop (depth : Nat) (n : Node) : Stmt :=
  match depth with
  | 0 => .unsupported n.kind
  | depth + 1 =>
    let body := match n.field? "body" with
      | some c => block depth c
      | none => []
    match n.namedChildren with
    | header :: _ :: _ =>
      match header.kind with
      | "for_clause" =>
        .for ((header.field? "initializer").map (stmt depth))
          ((header.field? "condition").map (expr depth))
          ((header.field? "update").map (stmt depth)) body
      | "range_clause" =>
        let targets := match header.field? "left" with
          | some c => exprList depth c
          | none => []
        let iterable := match header.field? "right" with
          | some c => expr depth c
          | none => .unsupported header.kind
        .range targets[0]? targets[1]? (header.hasText ":=") iterable body
      | _ => .for none (some (expr depth header)) none body
    | _ => .for none none none body

def switch (depth : Nat) (n : Node) : Stmt :=
  match depth with
  | 0 => .unsupported n.kind
  | depth + 1 =>
    let cases := n.namedChildren.filterMap fun c =>
      match c.kind with
      | "expression_case" =>
        let values := match c.field? "value" with
          | some v => exprList depth v
          | none => []
        some (.mk values (statements depth (c.namedChildren.drop 1)))
      | "default_case" => some (.mk [] (statements depth c.namedChildren))
      | _ => none
    .switch ((n.field? "initializer").map (stmt depth)) ((n.field? "value").map (expr depth)) cases

/-- A declaration. Only parentheses of its own make it a group. -/
def genDecl (depth : Nat) (n : Node) : GenDecl :=
  match depth with
  | 0 => .mk .var false []
  | depth + 1 => .mk (genKind n.kind) (n.hasText "(") (specs depth n)

def specs (depth : Nat) (n : Node) : List Spec :=
  match depth with
  | 0 => []
  | depth + 1 => n.namedChildren.flatMap fun c =>
    let type? := (c.field? "type").map (expr depth)
    match c.kind with
    | "var_spec" | "const_spec" =>
      let values := match c.field? "value" with
        | some list => exprList depth list
        | none => []
      [.value (texts (c.fields "name")) type? values]
    | "type_spec" | "type_alias" =>
      [.type (((c.field? "name").map (·.text)).getD "")
        (type?.getD (.unsupported c.kind)) (c.kind == "type_alias")]
    | "var_spec_list" => specs depth c
    | _ => []

end

def imports (depth : Nat) (n : Node) : List ImportSpec :=
  match depth with
  | 0 => []
  | depth + 1 => n.namedChildren.flatMap fun c =>
    match c.kind with
    | "import_spec" =>
      [{ name := (c.field? "name").map (·.text)
         path := unquote (((c.field? "path").map (·.text)).getD "") }]
    | "import_spec_list" => imports depth c
    | _ => []

def funcDecl (depth : Nat) (n : Node) : FuncDecl where
  receiver := (n.field? "receiver").bind fun list => (parameters depth list).head?
  name := ((n.field? "name").map (·.text)).getD ""
  sig := signature depth n
  body := (n.field? "body").map (block depth)

def decls (depth : Nat) (n : Node) : List Decl :=
  n.namedChildren.filterMap fun c =>
    if c.kind == "function_declaration" || c.kind == "method_declaration" then
      some (.func (funcDecl depth c))
    else if isDeclaration c.kind then some (.gen (genDecl depth c))
    else none

end Reader

/-- Reads a source file. The last package clause names the package. -/
def read (source : String) : Except ReadError File :=
  match structure? source with
  | none => .error .syntaxError
  | some root =>
    -- A node may be looked at by a few functions before its children are.
    let depth := 4 * root.height + 4
    let clauses := root.namedChildren.filter (·.kind == "package_clause")
    match clauses.getLast?.bind (·.namedChildren.head?) with
    | none => .error .missingPackage
    | some name =>
      if name.text.isEmpty then .error .missingPackage
      else .ok {
        package := name.text
        imports := (root.namedChildren.filter (·.kind == "import_declaration")).flatMap
          (Reader.imports depth)
        decls := Reader.decls depth root }

end GoToJava.Go
