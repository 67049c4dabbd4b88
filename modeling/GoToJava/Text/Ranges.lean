/-!
Ranges of characters, listed in a text.
-/

namespace GoToJava.Text

def hexDigit (c : Char) : Nat := if c.isDigit then c.toNat - '0'.toNat else c.toNat - 'A'.toNat + 10

def hexNumber (digits : List Char) : Nat := digits.foldl (fun n c => 16 * n + hexDigit c) 0

/-- The parts between separators. -/
def parts (isSeparator : Char → Bool) : List Char → List (List Char)
  | [] => [[]]
  | c :: cs =>
    if isSeparator c then [] :: parts isSeparator cs
    else
      match parts isSeparator cs with
      | part :: rest => (c :: part) :: rest
      | [] => [[c]]

def words (cs : List Char) : List (List Char) :=
  (parts (fun c => c == ' ' || c == '\n') cs).filter (· ≠ [])

/-- A range in hexadecimal: the first and the last number, or the only one. What the last number
starts with is left out if the first number starts so too. -/
def range (word : List Char) : Nat × Nat :=
  match parts (· == '-') word with
  | [first, last] =>
    (hexNumber first, hexNumber (first.take (first.length - last.length) ++ last))
  | _ => (hexNumber word, hexNumber word)

/-- The ranges that a text lists. -/
def ranges (text : String) : Array (Nat × Nat) := ((words text.toList).map range).toArray

/-- A range with what its characters are mapped to: the first and the last number, the number that
the first one is mapped to, and the numbers that follow it for all of them. -/
def image (word : List Char) : Option (Nat × Nat × Nat × List Nat) :=
  match parts (fun c => c == '=' || c == '+') word with
  | first :: upper :: rest =>
    let (first, last) := range first
    some (first, last, hexNumber upper, rest.map hexNumber)
  | _ => none

/-- The ranges that a text lists, with what they are mapped to. -/
def images (text : String) : Array (Nat × Nat × Nat × List Nat) :=
  ((words text.toList).filterMap image).toArray

end GoToJava.Text
