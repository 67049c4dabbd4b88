import GoToJava.Toml.Scalar
import GoToJava.Toml.Value

/-! Reading TOML. -/

namespace GoToJava.Toml

/-- What was read, and the rest of the text. -/
abbrev Read (α : Type) := List Char → Option (α × List Char)

namespace Reader

def isSpace (c : Char) : Bool := c == ' ' || c == '\t'

def skipSpace (cs : List Char) : List Char := cs.dropWhile isSpace

/-- The text after a line end. -/
def afterNewline? : List Char → Option (List Char)
  | '\n' :: rest => some rest
  | '\r' :: '\n' :: rest => some rest
  | _ => none

/-- Characters that may stand in comments and in strings between single quotes, the quote aside. -/
def isPlain (c : Char) : Bool := c == '\t' || (' ' ≤ c && c ≠ '\x7f')

/-- The text after a comment, if one starts here. -/
def skipComment (cs : List Char) : List Char :=
  match cs with
  | '#' :: rest => rest.dropWhile isPlain
  | _ => cs

/-- The text after the end of a line that has nothing more to say. -/
def endOfLine? (cs : List Char) : Option (List Char) :=
  match skipComment (skipSpace cs) with
  | [] => some []
  | cs => afterNewline? cs

/-- White space, comments and line ends. -/
def skipLines : Nat → List Char → List Char
  | 0, cs => cs
  | steps + 1, cs =>
    let cs := skipComment (skipSpace cs)
    match afterNewline? cs with
    | some rest => skipLines steps rest
    | none => cs

/-! ## Strings -/

def scalarValue? (digits : List Char) : Option Char :=
  let n := valueOf 16 digits
  if digits.all isHexDigit && (n < 0xD800 || (0xDFFF < n && n < 0x110000)) then some (Char.ofNat n)
  else none

/-- The character that an escape stands for. -/
def escape? : Read Char
  | 'b' :: rest => some ('\x08', rest)
  | 't' :: rest => some ('\t', rest)
  | 'n' :: rest => some ('\n', rest)
  | 'f' :: rest => some ('\x0c', rest)
  | 'r' :: rest => some ('\r', rest)
  | '\"' :: rest => some ('\"', rest)
  | '\\' :: rest => some ('\\', rest)
  | 'u' :: rest => (scalarValue? (rest.take 4)).bind fun c =>
      if rest.length < 4 then none else some (c, rest.drop 4)
  | 'U' :: rest => (scalarValue? (rest.take 8)).bind fun c =>
      if rest.length < 8 then none else some (c, rest.drop 8)
  | _ => none

/-- A string of one line, after its opening quote. -/
def basic? : Nat → Read (List Char)
  | 0, _ => none
  | steps + 1, cs =>
    match cs with
    | [] => none
    | '\"' :: rest => some ([], rest)
    | '\\' :: rest => do
      let (c, rest) ← escape? rest
      let (text, rest) ← basic? steps rest
      some (c :: text, rest)
    | c :: rest => do
      if !isPlain c then none
      let (text, rest) ← basic? steps rest
      some (c :: text, rest)

/-- A string between single quotes, after the opening one. -/
def literal? : Read (List Char)
  | [] => none
  | '\'' :: rest => some ([], rest)
  | c :: rest =>
    if isPlain c then (literal? rest).map fun (text, rest) => (c :: text, rest) else none

/-- How many quotes stand here. -/
def countQuotes (quote : Char) (cs : List Char) : Nat := (cs.takeWhile (· = quote)).length

/-- Where a string of several lines ends: with three quotes, before which two more may stand. -/
def closing? (quote : Char) (cs : List Char) : Option (List Char × List Char) :=
  let n := min (countQuotes quote cs) 5
  if n < 3 then none else some (List.replicate (n - 3) quote, cs.drop n)

/-- White space and line ends. -/
def skipBlankLines : Nat → List Char → List Char
  | 0, cs => cs
  | steps + 1, cs =>
    let cs := skipSpace cs
    match afterNewline? cs with
    | some rest => skipBlankLines steps rest
    | none => cs

/-- The text after a backslash that ends a line. White space and line ends after it do not count. -/
def afterLineEscape? (cs : List Char) : Option (List Char) :=
  (afterNewline? (skipSpace cs)).map fun rest => skipBlankLines rest.length rest

/-- A string of several lines, after its opening quotes. -/
def multiline? (quote : Char) (escapes : Bool) : Nat → Read (List Char)
  | 0, _ => none
  | steps + 1, cs =>
    match closing? quote cs with
    | some found => some found
    | none =>
      match afterNewline? cs with
      | some rest => (multiline? quote escapes steps rest).map fun (text, rest) =>
          ('\n' :: text, rest)
      | none =>
        match cs with
        | [] => none
        | c :: rest =>
          if escapes && c == '\\' then
            match afterLineEscape? rest with
            | some rest => multiline? quote escapes steps rest
            | none => do
              let (c, rest) ← escape? rest
              let (text, rest) ← multiline? quote escapes steps rest
              some (c :: text, rest)
          else if isPlain c then
            (multiline? quote escapes steps rest).map fun (text, rest) => (c :: text, rest)
          else none

/-- The text after the line end that may follow opening quotes. -/
def skipFirstNewline (cs : List Char) : List Char := (afterNewline? cs).getD cs

def string? (cs : List Char) : Option (String × List Char) :=
  let steps := cs.length + 1
  let found := match cs with
    | '\"' :: '\"' :: '\"' :: rest => multiline? '\"' true steps (skipFirstNewline rest)
    | '\"' :: rest => basic? steps rest
    | '\'' :: '\'' :: '\'' :: rest => multiline? '\'' false steps (skipFirstNewline rest)
    | '\'' :: rest => literal? rest
    | _ => none
  found.map fun (text, rest) => (String.ofList text, rest)

/-! ## Keys -/

def isBare (c : Char) : Bool := (c.isAlphanum && c.toNat < 0x80) || c == '_' || c == '-'

def simpleKey? (cs : List Char) : Option (String × List Char) :=
  match cs with
  | '\"' :: rest =>
    (basic? (rest.length + 1) rest).map fun (text, rest) => (String.ofList text, rest)
  | '\'' :: rest => (literal? rest).map fun (text, rest) => (String.ofList text, rest)
  | _ =>
    let (key, rest) := cs.span isBare
    if key.isEmpty then none else some (String.ofList key, rest)

/-- How deep tables and arrays may be nested. -/
def maxNesting : Nat := 80

/-- A key, with dots between its parts. -/
def key? : Nat → Read (List String)
  | 0, _ => none
  | parts + 1, cs => do
    let (part, rest) ← simpleKey? (skipSpace cs)
    match skipSpace rest with
    | '.' :: rest =>
      let (parts, rest) ← key? parts rest
      some (part :: parts, rest)
    | rest => some ([part], rest)

/-- A key of fewer parts than tables may be nested. -/
def path? (cs : List Char) : Option (List String × List Char) := key? (maxNesting - 1) cs

/-! ## Values -/

def isScalarChar (c : Char) : Bool :=
  (c.isAlphanum && c.toNat < 0x80) || c == '_' || c == '+' || c == '-' || c == '.' || c == ':'

/-- A truth value, a number, a date or a time. A blank may stand between a date and a time. -/
def scalar? (cs : List Char) : Option (Value × List Char) :=
  let (token, rest) := cs.span isScalarChar
  let text := String.ofList token
  if text == "true" then some (.bool true, rest)
  else if text == "false" then some (.bool false, rest)
  else if isDate token then
    match rest with
    | ' ' :: more =>
      let (time, after) := more.span isScalarChar
      if isTimeWithOffset time then some (.moment (text ++ " " ++ String.ofList time), after)
      else some (.moment text, rest)
    | _ => some (.moment text, rest)
  else if isMoment token then some (.moment text, rest)
  else if isInteger token || isFloat token then some (.number text, rest)
  else none

mutual

/-- A value. `depth` is how much deeper values may be nested. -/
def value? (steps depth : Nat) (cs : List Char) : Option (Value × List Char) :=
  match steps with
  | 0 => none
  | steps + 1 =>
    match cs with
    | '\"' :: _ | '\'' :: _ => (string? cs).map fun (text, rest) => (.string text, rest)
    | '[' :: rest =>
      match depth with
      | 0 => none
      | depth + 1 => (items? steps depth rest).map fun (items, rest) => (.array items, rest)
    | '\x7b' :: rest =>
      match depth with
      | 0 => none
      | depth + 1 =>
        match skipSpace rest with
        | '\x7d' :: rest => some (.inline [], rest)
        | rest => (pairs? steps depth [] rest).map fun (es, rest) => (.inline es, rest)
    | _ => scalar? cs

/-- The rest of an array. -/
def items? (steps depth : Nat) (cs : List Char) : Option (List Value × List Char) :=
  match steps with
  | 0 => none
  | steps + 1 =>
    match skipLines cs.length cs with
    | ']' :: rest => some ([], rest)
    | cs => do
      let (item, rest) ← value? steps depth cs
      match skipLines rest.length rest with
      | ']' :: rest => some ([item], rest)
      | ',' :: rest =>
        let (items, rest) ← items? steps depth rest
        some (item :: items, rest)
      | _ => none

/-- The rest of a table between braces, after the entries that were read. -/
def pairs? (steps depth : Nat) (entries : Entries) (cs : List Char) :
    Option (Entries × List Char) :=
  match steps with
  | 0 => none
  | steps + 1 => do
    let (path, rest) ← path? cs
    let rest ← match rest with
      | '=' :: rest => some rest
      | _ => none
    let (value, rest) ← value? steps depth (skipSpace rest)
    let key ← path.getLast?
    let entries ← entries.addBelow? key value path.dropLast
    match skipSpace rest with
    | '\x7d' :: rest => some (entries, rest)
    | ',' :: rest => pairs? steps depth entries rest
    | _ => none

end

/-! ## Documents -/

/-- A document under way: its tables, and the path of the open one. -/
structure Document where
  root : Entries := []
  here : List String := []

def header? (doc : Document) (cs : List Char) : Option (Document × List Char) := do
  let (isItem, cs) := match cs with
    | '[' :: rest => (true, rest)
    | cs => (false, cs)
  let (path, rest) ← path? cs
  let rest ← match isItem, rest with
    | true, ']' :: ']' :: rest => some rest
    | false, ']' :: rest => some rest
    | _, _ => none
  let root ← if isItem then doc.root.openItem? path else doc.root.openTable? path
  some (⟨root, path⟩, ← endOfLine? rest)

def assign? (doc : Document) (cs : List Char) : Option (Document × List Char) := do
  let (path, rest) ← path? cs
  let rest ← match rest with
    | '=' :: rest => some rest
    | _ => none
  let (value, rest) ← value? (2 * rest.length + 2) (maxNesting - 1) (skipSpace rest)
  let key ← path.getLast?
  let root ← doc.root.changeAt? (·.addBelow? key value path.dropLast) doc.here
  some ({ doc with root }, ← endOfLine? rest)

/-- The lines of a document. Each takes a character at least. -/
def lines? : Nat → Document → List Char → Option Entries
  | 0, _, _ => none
  | steps + 1, doc, cs =>
    match skipSpace cs with
    | [] => some doc.root
    | '[' :: rest => (header? doc rest).bind fun (doc, rest) => lines? steps doc rest
    | cs =>
      match endOfLine? cs with
      | some rest => lines? steps doc rest
      | none => (assign? doc cs).bind fun (doc, rest) => lines? steps doc rest

end Reader

/-- Reads a TOML document. -/
def read? (text : String) : Option Entries :=
  let cs := match text.toList with
    | '\ufeff' :: rest => rest
    | cs => cs
  Reader.lines? (cs.length + 1) {} cs

end GoToJava.Toml
