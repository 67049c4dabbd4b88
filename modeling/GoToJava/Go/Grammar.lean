import GoToJava.Go.Lexeme
import GoToJava.Grammar.Reading

/-!
The grammar of Go source files. A line end is a token only where a terminator may stand; elsewhere
it is white space. Names of types, fields and packages are identifiers that are shown as such.
-/

namespace GoToJava.Go

open Grammar Grammar.Rule

namespace Rules

/-- What ends a declaration or a statement. -/
def terminator : Rule := alt [text "\n", text ";", text "\x00"]

def comma : Rule := text ","

/-- One or more, divided by terminators; the last may be ended by one too. -/
def lines (r : Rule) : Rule := seq [sepBy terminator r, opt terminator]

def expression : Rule := ref "_expression"

def typeRule : Rule := ref "_type"

/-- The results of a function: a list of parameters or one type. -/
def result : Rule := field "result" (opt (alt [ref "parameter_list", ref "_simple_type"]))

def parameters : Rule := field "parameters" (ref "parameter_list")

def typeParameters : Rule := field "type_parameters" (opt (ref "type_parameter_list"))

def label : Rule := shown "label_name" (ref "identifier")

/-- Declarations. -/
def declarations : List (String × Rule) := [
  ("source_file", seq [
    star (alt [seq [ref "_statement", terminator], seq [ref "_top_level_declaration", terminator]]),
    opt (ref "_top_level_declaration")]),
  ("_top_level_declaration", alt [ref "package_clause", ref "function_declaration",
    ref "method_declaration", ref "import_declaration"]),
  ("package_clause", seq [text "package", ref "_package_identifier"]),
  ("import_declaration", seq [text "import", alt [ref "import_spec", ref "import_spec_list"]]),
  ("import_spec", seq [
    opt (field "name" (alt [ref "dot", shown "blank_identifier" (text "_"),
      ref "_package_identifier"])),
    field "path" (ref "_string_literal")]),
  ("dot", text "."),
  ("import_spec_list", seq [text "(", opt (lines (ref "import_spec")), text ")"]),
  ("_declaration", alt [ref "const_declaration", ref "type_declaration", ref "var_declaration"]),
  ("const_declaration", seq [text "const", alt [ref "const_spec",
    seq [text "(", star (seq [ref "const_spec", terminator]), text ")"]]]),
  ("const_spec", prec 0 (some .left) (seq [
    field "name" (sepBy comma (ref "identifier")),
    opt (seq [opt (field "type" typeRule), text "=", field "value" (ref "expression_list")])])),
  ("var_declaration", seq [text "var", alt [ref "var_spec", ref "var_spec_list"]]),
  ("var_spec", seq [
    sepBy comma (field "name" (ref "identifier")),
    alt [
      seq [field "type" typeRule, opt (seq [text "=", field "value" (ref "expression_list")])],
      seq [text "=", field "value" (ref "expression_list")]]]),
  ("var_spec_list", seq [text "(", star (seq [ref "var_spec", terminator]), text ")"]),
  ("function_declaration", prec 1 (some .right) (seq [text "func",
    field "name" (ref "identifier"), typeParameters, parameters, result,
    field "body" (opt (ref "block"))])),
  ("method_declaration", prec 1 (some .right) (seq [text "func",
    field "receiver" (ref "parameter_list"), field "name" (ref "_field_identifier"),
    parameters, result, field "body" (opt (ref "block"))])),
  ("type_parameter_list", seq [text "[", sepBy comma (ref "type_parameter_declaration"),
    opt comma, text "]"]),
  ("type_parameter_declaration", seq [
    sepBy comma (field "name" (ref "identifier")),
    field "type" (shown "type_constraint" (ref "type_elem"))]),
  ("parameter_list", seq [text "(",
    opt (seq [
      opt (sepBy comma
        (alt [ref "parameter_declaration", ref "variadic_parameter_declaration"])),
      opt comma]),
    text ")"]),
  ("parameter_declaration", seq [
    opt (sepBy comma (field "name" (ref "identifier"))), field "type" typeRule]),
  ("variadic_parameter_declaration", seq [
    field "name" (opt (ref "identifier")), text "...", field "type" typeRule]),
  ("type_alias", seq [field "name" (ref "_type_identifier"), typeParameters, text "=",
    field "type" typeRule]),
  ("type_declaration", seq [text "type", alt [ref "type_spec", ref "type_alias",
    seq [text "(", opt (lines (alt [ref "type_spec", ref "type_alias"])), text ")"]]]),
  ("type_spec", seq [field "name" (ref "_type_identifier"), typeParameters,
    field "type" typeRule]),
  ("expression_list", sepBy comma expression)]

/-- Types. -/
def types : List (String × Rule) := [
  ("_type", alt [ref "_simple_type", ref "parenthesized_type"]),
  ("parenthesized_type", seq [text "(", typeRule, text ")"]),
  ("_simple_type", alt [weigh (-1) (ref "_type_identifier"), ref "generic_type",
    ref "qualified_type", ref "pointer_type", ref "struct_type", ref "interface_type",
    ref "array_type", ref "slice_type", weigh 3 (ref "map_type"), ref "channel_type",
    ref "function_type", ref "negated_type"]),
  ("generic_type", weigh 1 (seq [
    field "type" (alt [ref "_type_identifier", ref "qualified_type", ref "negated_type"]),
    field "type_arguments" (ref "type_arguments")])),
  ("type_arguments", weigh 2 (seq [text "[", sepBy comma (ref "type_elem"), opt comma,
    text "]"])),
  ("pointer_type", prec 6 none (seq [text "*", typeRule])),
  ("array_type", prec 0 (some .right) (seq [text "[", field "length" expression, text "]",
    field "element" typeRule])),
  ("implicit_length_array_type", seq [text "[", text "...", text "]", field "element" typeRule]),
  ("slice_type", prec 0 (some .right) (seq [text "[", text "]", field "element" typeRule])),
  ("struct_type", seq [text "struct", ref "field_declaration_list"]),
  ("negated_type", prec 0 (some .left) (seq [text "~", typeRule])),
  ("field_declaration_list", seq [text "\x7b", opt (lines (ref "field_declaration")),
    text "\x7d"]),
  ("field_declaration", seq [
    alt [
      seq [sepBy comma (field "name" (ref "_field_identifier")), field "type" typeRule],
      seq [opt (text "*"), field "type" (alt [ref "_type_identifier", ref "qualified_type",
        ref "generic_type"])]],
    field "tag" (opt (ref "_string_literal"))]),
  ("interface_type", seq [text "interface", text "\x7b", opt (lines (ref "_interface_elem")),
    text "\x7d"]),
  ("_interface_elem", alt [ref "method_elem", ref "type_elem"]),
  ("method_elem", seq [field "name" (ref "_field_identifier"), parameters, result]),
  ("type_elem", sepBy (text "|") typeRule),
  ("map_type", prec 0 (some .right) (seq [text "map", text "[", field "key" typeRule, text "]",
    field "value" typeRule])),
  ("channel_type", prec 0 (some .left) (alt [
    seq [text "chan", field "value" typeRule],
    seq [text "chan", text "<-", field "value" typeRule],
    prec 6 none (seq [text "<-", text "chan", field "value" typeRule])])),
  ("function_type", prec 0 (some .right) (seq [text "func", parameters, result]))]

/-- Statements. -/
def statements : List (String × Rule) := [
  ("block", seq [text "\x7b", opt (ref "statement_list"), text "\x7d"]),
  ("statement_list", alt [
    seq [sepBy terminator (ref "_statement"),
      opt (seq [terminator, opt (shown "labeled_statement" (ref "empty_labeled_statement"))])],
    shown "labeled_statement" (ref "empty_labeled_statement")]),
  ("_statement", alt [ref "_declaration", ref "_simple_statement", ref "return_statement",
    ref "go_statement", ref "defer_statement", ref "if_statement", ref "for_statement",
    ref "expression_switch_statement", ref "type_switch_statement", ref "select_statement",
    ref "labeled_statement", ref "fallthrough_statement", ref "break_statement",
    ref "continue_statement", ref "goto_statement", ref "block", ref "empty_statement"]),
  ("empty_statement", text ";"),
  ("_simple_statement", alt [ref "expression_statement", ref "send_statement",
    ref "inc_statement", ref "dec_statement", ref "assignment_statement",
    ref "short_var_declaration"]),
  ("expression_statement", expression),
  ("send_statement", seq [field "channel" expression, text "<-", field "value" expression]),
  ("receive_statement", seq [
    opt (seq [field "left" (ref "expression_list"), alt [text "=", text ":="]]),
    field "right" expression]),
  ("inc_statement", seq [expression, text "++"]),
  ("dec_statement", seq [expression, text "--"]),
  ("assignment_statement", seq [
    field "left" (ref "expression_list"),
    field "operator" (alt (["*=", "/=", "%=", "<<=", ">>=", "&=", "&^=", "+=", "-=", "|=", "^=",
      "="].map text)),
    field "right" (ref "expression_list")]),
  ("short_var_declaration", seq [
    field "left" (ref "expression_list"), text ":=", field "right" (ref "expression_list")]),
  ("labeled_statement", seq [field "label" label, text ":", ref "_statement"]),
  ("empty_labeled_statement", seq [field "label" label, text ":"]),
  ("fallthrough_statement", prec 0 (some .left) (text "fallthrough")),
  ("break_statement", seq [text "break", opt label]),
  ("continue_statement", seq [text "continue", opt label]),
  ("goto_statement", seq [text "goto", label]),
  ("return_statement", seq [text "return", opt (ref "expression_list")]),
  ("go_statement", seq [text "go", expression]),
  ("defer_statement", seq [text "defer", expression]),
  ("if_statement", seq [text "if",
    opt (seq [field "initializer" (ref "_simple_statement"), text ";"]),
    field "condition" expression, field "consequence" (ref "block"),
    opt (seq [text "else", field "alternative" (alt [ref "block", ref "if_statement"])])]),
  ("for_statement", seq [text "for",
    opt (alt [expression, ref "for_clause", ref "range_clause"]), field "body" (ref "block")]),
  ("for_clause", seq [
    field "initializer" (opt (ref "_simple_statement")), text ";",
    field "condition" (opt expression), text ";",
    field "update" (opt (ref "_simple_statement"))]),
  ("range_clause", seq [
    opt (seq [field "left" (ref "expression_list"), alt [text "=", text ":="]]),
    text "range", field "right" expression]),
  ("expression_switch_statement", seq [text "switch",
    opt (seq [field "initializer" (ref "_simple_statement"), text ";"]),
    field "value" (opt expression), text "\x7b",
    star (alt [ref "expression_case", ref "default_case"]), text "\x7d"]),
  ("expression_case", seq [text "case", field "value" (ref "expression_list"), text ":",
    opt (ref "statement_list")]),
  ("default_case", seq [text "default", text ":", opt (ref "statement_list")]),
  ("type_switch_statement", seq [text "switch", ref "_type_switch_header", text "\x7b",
    star (alt [ref "type_case", ref "default_case"]), text "\x7d"]),
  ("_type_switch_header", seq [
    opt (seq [field "initializer" (ref "_simple_statement"), text ";"]),
    opt (seq [field "alias" (ref "expression_list"), text ":="]),
    field "value" expression, text ".", text "(", text "type", text ")"]),
  ("type_case", seq [text "case", field "type" (sepBy comma typeRule), text ":",
    opt (ref "statement_list")]),
  ("select_statement", seq [text "select", text "\x7b",
    star (alt [ref "communication_case", ref "default_case"]), text "\x7d"]),
  ("communication_case", seq [text "case",
    field "communication" (alt [ref "send_statement", ref "receive_statement"]), text ":",
    opt (ref "statement_list")])]

/-- The operators of one binding level. -/
def operators (level : Int) (ops : List String) : Rule :=
  prec level (some .left) (seq [field "left" expression, field "operator" (alt (ops.map text)),
    field "right" expression])

/-- Expressions. -/
def expressions : List (String × Rule) := [
  ("_expression", alt [ref "unary_expression", ref "binary_expression",
    ref "selector_expression", ref "index_expression", ref "slice_expression",
    ref "call_expression", ref "type_assertion_expression", ref "type_conversion_expression",
    ref "type_instantiation_expression", ref "identifier",
    shown "identifier" (alt [text "new", text "make"]), ref "composite_literal",
    ref "func_literal", ref "_string_literal", ref "int_literal", ref "float_literal",
    ref "imaginary_literal", ref "rune_literal", shown "nil" (text "nil"),
    shown "true" (text "true"), shown "false" (text "false"), shown "iota" (text "iota"),
    ref "parenthesized_expression"]),
  ("parenthesized_expression", seq [text "(", expression, text ")"]),
  ("call_expression", prec 7 none (alt [
    seq [field "function" (shown "identifier" (alt [text "new", text "make"])),
      field "arguments" (shown "argument_list" (ref "special_argument_list"))],
    seq [field "function" expression, field "type_arguments" (opt (ref "type_arguments")),
      field "arguments" (ref "argument_list")]])),
  ("variadic_argument", prec 0 (some .right) (seq [expression, text "..."])),
  ("special_argument_list", seq [text "(",
    opt (seq [typeRule, star (seq [comma, expression]), opt comma]), text ")"]),
  ("argument_list", seq [text "(",
    opt (seq [sepBy comma (alt [expression, ref "variadic_argument"]), opt comma]), text ")"]),
  ("selector_expression", prec 7 none (seq [field "operand" expression, text ".",
    field "field" (ref "_field_identifier")])),
  ("index_expression", prec 7 none (weigh 1 (seq [field "operand" expression, text "[",
    field "index" expression, text "]"]))),
  ("slice_expression", prec 7 none (seq [field "operand" expression, text "[",
    alt [
      seq [field "start" (opt expression), text ":", field "end" (opt expression)],
      seq [field "start" (opt expression), text ":", field "end" expression, text ":",
        field "capacity" expression]],
    text "]"])),
  ("type_assertion_expression", prec 7 none (seq [field "operand" expression, text ".",
    text "(", field "type" typeRule, text ")"])),
  ("type_conversion_expression", weigh (-1) (seq [field "type" typeRule, text "(",
    field "operand" expression, opt comma, text ")"])),
  ("type_instantiation_expression", weigh (-1) (seq [field "type" typeRule, text "[",
    sepBy comma typeRule, opt comma, text "]"])),
  ("composite_literal", prec (-1) none (seq [
    field "type" (alt [ref "map_type", ref "slice_type", ref "array_type",
      ref "implicit_length_array_type", ref "struct_type", ref "_type_identifier",
      ref "generic_type", ref "qualified_type"]),
    field "body" (ref "literal_value")])),
  ("literal_value", seq [text "\x7b",
    opt (seq [opt (sepBy comma (alt [ref "literal_element", ref "keyed_element"])), opt comma]),
    text "\x7d"]),
  ("literal_element", alt [expression, ref "literal_value"]),
  ("keyed_element", seq [field "key" (ref "literal_element"), text ":",
    field "value" (ref "literal_element")]),
  ("func_literal", seq [text "func", parameters, result, field "body" (ref "block")]),
  ("unary_expression", prec 6 none (seq [
    field "operator" (alt (["+", "-", "!", "^", "*", "&", "<-"].map text)),
    field "operand" expression])),
  ("binary_expression", alt [
    operators 5 ["*", "/", "%", "<<", ">>", "&", "&^"],
    operators 4 ["+", "-", "|", "^"],
    operators 3 ["==", "!=", "<", "<=", ">", ">="],
    operators 2 ["&&"],
    operators 1 ["||"]]),
  ("qualified_type", seq [field "package" (ref "_package_identifier"), text ".",
    field "name" (ref "_type_identifier")]),
  ("_type_identifier", shown "type_identifier" (ref "identifier")),
  ("_field_identifier", shown "field_identifier" (ref "identifier")),
  ("_package_identifier", shown "package_identifier" (ref "identifier")),
  ("_string_literal", alt [ref "raw_string_literal", ref "interpreted_string_literal"]),
  ("raw_string_literal", seq [text "\x60", ref "raw_string_literal_content", text "\x60"]),
  ("interpreted_string_literal", seq [text "\"",
    star (alt [ref "interpreted_string_literal_content", ref "escape_sequence"]),
    ref "_closing_quote"])]

end Rules

/-- The grammar of Go. -/
def grammar : Grammar where
  rules := Rules.declarations ++ Rules.types ++ Rules.statements ++ Rules.expressions
  inlined := ["_type", "_type_identifier", "_field_identifier", "_package_identifier",
    "_top_level_declaration", "_string_literal", "_interface_elem"]
  classes := [
    { name := "identifier", scan := Lexeme.identifier },
    { name := "raw_string_literal_content", scan := Lexeme.rawStretch, greedy := true },
    { name := "interpreted_string_literal_content", scan := Lexeme.stringStretch,
      immediate := true, greedy := true },
    { name := "escape_sequence", scan := Lexeme.stringEscape, immediate := true },
    { name := "_closing_quote", scan := Lexeme.closingQuote, immediate := true },
    { name := "int_literal", scan := Lexeme.int },
    { name := "float_literal", scan := Lexeme.float },
    { name := "imaginary_literal", scan := Lexeme.imaginary },
    { name := "rune_literal", scan := Lexeme.rune }]
  word := "identifier"
  reserved := ["break", "case", "chan", "const", "continue", "default", "defer", "else",
    "fallthrough", "for", "func", "go", "goto", "if", "import", "interface", "map", "package",
    "range", "return", "select", "struct", "switch", "type", "var"]
  isBlank := Lexeme.isBlank
  comment := Lexeme.comment
  -- The rest of each longer text starts an operand that may follow the shorter one.
  hides := [("<-", ["<"]), ("<<", ["<"]), ("<<=", ["<"]), ("++", ["+"]), ("--", ["-"]),
    ("&^", ["&"]), ("&^=", ["&"]), ("&&", ["&"])]
  -- After an expression the text may end without a terminator, unless a send may follow.
  atEnd := some { token := "\x00", beside := "/", refused := "<-" }

/-- The grammar made ready for reading. -/
def tables : Tables := grammar.tables

/-- The structure of a Go source file, if it has no syntax error. A byte order mark at its start is
skipped. -/
def structure? (source : String) : Option Node :=
  tables.read? (match source.toList with
    | '﻿' :: rest => String.ofList rest
    | _ => source)

end GoToJava.Go
