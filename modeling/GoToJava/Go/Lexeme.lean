import GoToJava.Text.Identifier

/-!
The tokens of Go that are no fixed texts. Each function gives the length of the longest token of its
class at the head of the text. A NUL belongs to no such token, not even in a string or a comment.
-/

namespace GoToJava.Go.Lexeme

/-- The first result that is longer than all results before it. -/
def longest (found : List (Option Nat)) : Option Nat :=
  found.foldl (fun best n =>
    match best, n with
    | some b, some m => if b < m then some m else some b
    | none, n => n
    | best, none => best) none

/-- The number of characters at the head for which `p` holds. -/
def span (p : Char → Bool) : List Char → Nat
  | c :: cs => if p c then span p cs + 1 else 0
  | [] => 0

def isNul (c : Char) : Bool := c == '\x00'

def identifier : List Char → Option Nat
  | c :: cs =>
    if c == '_' || Text.isLetter c then some (span Text.continuesIdentifier cs + 1) else none
  | [] => none

/-! ## Numbers -/

def isBinary (c : Char) : Bool := c == '0' || c == '1'

def isOctal (c : Char) : Bool := decide ('0' ≤ c) && decide (c ≤ '7')

def isHex (c : Char) : Bool :=
  c.isDigit || (decide ('a' ≤ c) && decide (c ≤ 'f')) || (decide ('A' ≤ c) && decide (c ≤ 'F'))

/-- More digits of a number; an underscore may stand before each. -/
def moreDigits (p : Char → Bool) : List Char → Nat
  | '_' :: c :: cs => if p c then moreDigits p cs + 2 else 0
  | c :: cs => if p c then moreDigits p cs + 1 else 0
  | [] => 0

/-- One or more digits, divided by single underscores. -/
def digits (p : Char → Bool) : List Char → Option Nat
  | c :: cs => if p c then some (moreDigits p cs + 1) else none
  | [] => none

/-- Digits that an underscore may lead. -/
def ledDigits (p : Char → Bool) : List Char → Option Nat
  | '_' :: cs => (digits p cs).map (· + 1)
  | cs => digits p cs

/-- Something after a zero and a letter that tells the base. -/
def based (small large : Char) (scan : List Char → Option Nat) : List Char → Option Nat
  | '0' :: c :: cs => if c == small || c == large then (scan cs).map (· + 2) else none
  | _ => none

def binaryInt : List Char → Option Nat := based 'b' 'B' (ledDigits isBinary)

def hexInt : List Char → Option Nat := based 'x' 'X' (ledDigits isHex)

def decimalInt : List Char → Option Nat
  | '0' :: _ => some 1
  | c :: cs => if c.isDigit then some (moreDigits Char.isDigit cs + 1) else none
  | [] => none

def octalInt (cs : List Char) : Option Nat :=
  longest [based 'o' 'O' (ledDigits isOctal) cs,
    match cs with
    | '0' :: rest => (ledDigits isOctal rest).map (· + 1)
    | _ => none]

def int (cs : List Char) : Option Nat :=
  longest [binaryInt cs, decimalInt cs, octalInt cs, hexInt cs]

/-- A sign that may be left out, and digits. -/
def signed : List Char → Option Nat
  | '+' :: cs => (digits Char.isDigit cs).map (· + 1)
  | '-' :: cs => (digits Char.isDigit cs).map (· + 1)
  | cs => digits Char.isDigit cs

def exponent (small large : Char) : List Char → Option Nat
  | c :: cs => if c == small || c == large then (signed cs).map (· + 1) else none
  | [] => none

/-- Adds the length of what may follow after `n` characters. -/
def andMaybe (scan : List Char → Option Nat) (cs : List Char) (n : Nat) : Nat :=
  n + (scan (cs.drop n)).getD 0

/-- Adds the length of what must follow after `n` characters. -/
def andThen (scan : List Char → Option Nat) (cs : List Char) (n : Nat) : Option Nat :=
  (scan (cs.drop n)).map (n + ·)

def point : List Char → Option Nat
  | '.' :: _ => some 1
  | _ => none

def decimalFloat (cs : List Char) : Option Nat :=
  let digits := digits Char.isDigit
  let power := exponent 'e' 'E'
  longest [
    (digits cs).bind (andThen point cs) |>.map (andMaybe digits cs) |>.map (andMaybe power cs),
    (digits cs).bind (andThen power cs),
    (point cs).bind (andThen digits cs) |>.map (andMaybe power cs)]

def hexFloat (cs : List Char) : Option Nat :=
  let power := exponent 'p' 'P'
  let mantissa (cs : List Char) : Option Nat :=
    longest [
      (ledDigits isHex cs).bind (andThen point cs) |>.map (andMaybe (digits isHex) cs)
        |>.bind (andThen power cs),
      (ledDigits isHex cs).bind (andThen power cs),
      (point cs).bind (andThen (digits isHex) cs) |>.bind (andThen power cs)]
  based 'x' 'X' mantissa cs

def float (cs : List Char) : Option Nat := longest [decimalFloat cs, hexFloat cs]

/-- A number with an `i` after it. -/
def imaginary (cs : List Char) : Option Nat :=
  let mark : List Char → Option Nat
    | 'i' :: _ => some 1
    | _ => none
  longest ([digits Char.isDigit cs, binaryInt cs, decimalInt cs, octalInt cs, hexInt cs,
    decimalFloat cs, hexFloat cs].map fun n => n.bind (andThen mark cs))

/-! ## Characters and strings -/

/-- Exactly `n` characters for which `p` holds. -/
def exactly (p : Char → Bool) (n : Nat) (cs : List Char) : Option Nat :=
  if (cs.take n).length = n && (cs.take n).all p then some n else none

/-- What may follow the backslash in a character literal. -/
def runeEscape : List Char → Option Nat
  | 'x' :: cs => (exactly isHex 2 cs).map (· + 1)
  | 'u' :: cs => (exactly isHex 4 cs).map (· + 1)
  | 'U' :: cs => (exactly isHex 8 cs).map (· + 1)
  | c :: cs =>
    if "abfnrtv\\\x27\"".contains c then some 1 else exactly isOctal 3 (c :: cs)
  | [] => none

def rune : List Char → Option Nat
  | '\x27' :: '\\' :: cs => do
    let n ← runeEscape cs
    if (cs.drop n).head? = some '\x27' then some (n + 3) else none
  | '\x27' :: c :: '\x27' :: _ => if c = '\x27' || isNul c then none else some 3
  | _ => none

/-- A backslash and what belongs to it in a string. -/
def stringEscape : List Char → Option Nat
  | '\\' :: 'x' :: cs => if 2 ≤ span isHex cs then some (span isHex cs + 2) else none
  | '\\' :: 'u' :: cs => (exactly isHex 4 cs).map (· + 2)
  | '\\' :: 'U' :: cs => (exactly isHex 8 cs).map (· + 2)
  | '\\' :: c :: cs =>
    if isNul c then none
    else if 2 ≤ span Char.isDigit (c :: cs) then some (min 3 (span Char.isDigit (c :: cs)) + 1)
    else some 2
  | _ => none

/-- A stretch of a string without quotes, backslashes, line ends and NULs. -/
def stringStretch (cs : List Char) : Option Nat :=
  match span (fun c => c ≠ '\"' && c ≠ '\n' && c ≠ '\\' && !isNul c) cs with
  | 0 => none
  | n => some n

def closingQuote : List Char → Option Nat
  | '\"' :: _ => some 1
  | _ => none

/-- All up to the next backquote or NUL. -/
def rawStretch (cs : List Char) : Option Nat := some (span (fun c => c ≠ '\x60' && !isNul c) cs)

/-! ## What stands between tokens -/

def isBlank (c : Char) : Bool := (decide ('\t' ≤ c) && decide (c ≤ '\r')) || c == ' '

/-- The length up to the end of a block comment. -/
def blockRest : List Char → Option Nat
  | '*' :: '/' :: _ => some 2
  | c :: cs => if isNul c then none else (blockRest cs).map (· + 1)
  | [] => none

def comment : List Char → Option Nat
  | '/' :: '/' :: cs => some (span (fun c => c ≠ '\n' && !isNul c) cs + 2)
  | '/' :: '*' :: cs => (blockRest cs).map (· + 2)
  | _ => none

end GoToJava.Go.Lexeme
