/-! Numbers, dates and times of TOML. -/

namespace GoToJava.Toml

def isBinDigit (c : Char) : Bool := c == '0' || c == '1'

def isOctDigit (c : Char) : Bool := '0' ≤ c && c ≤ '7'

def isHexDigit (c : Char) : Bool :=
  c.isDigit || ('a' ≤ c && c ≤ 'f') || ('A' ≤ c && c ≤ 'F')

def hexValue (c : Char) : Nat :=
  if c.isDigit then c.toNat - '0'.toNat
  else if 'a' ≤ c then c.toNat - 'a'.toNat + 10
  else c.toNat - 'A'.toNat + 10

/-- Digits with single underscores between them, without the underscores. -/
def digits? (isDigit : Char → Bool) : List Char → Option (List Char)
  | [] => none
  | [c] => if isDigit c then some [c] else none
  | c :: '_' :: rest => if isDigit c then (digits? isDigit rest).map (c :: ·) else none
  | c :: d :: rest => if isDigit c then (digits? isDigit (d :: rest)).map (c :: ·) else none

def valueOf (base : Nat) (digits : List Char) : Nat :=
  digits.foldl (fun n c => n * base + hexValue c) 0

/-- Integers have 64 bits. -/
def maxInt : Nat := Nat.pow 2 63 - 1

/-- The digits of a decimal number, which starts with a zero only if it has nothing else. -/
def decimal? (cs : List Char) : Option (List Char) :=
  match cs, digits? Char.isDigit cs with
  | '0' :: _ :: _, _ => none
  | _, ds => ds

def unsigned : List Char → Bool × List Char
  | '+' :: rest => (false, rest)
  | '-' :: rest => (true, rest)
  | cs => (false, cs)

def isInteger (cs : List Char) : Bool :=
  let based (isDigit : Char → Bool) (base : Nat) (rest : List Char) : Bool :=
    match digits? isDigit rest with
    | some ds => decide (valueOf base ds ≤ maxInt)
    | none => false
  match cs with
  | '0' :: 'x' :: rest => based isHexDigit 16 rest
  | '0' :: 'o' :: rest => based isOctDigit 8 rest
  | '0' :: 'b' :: rest => based isBinDigit 2 rest
  | _ =>
    let (negative, rest) := unsigned cs
    match decimal? rest with
    | some ds => decide (valueOf 10 ds ≤ if negative then maxInt + 1 else maxInt)
    | none => false

/-- The least number that is too large for 64 bits of floating point. -/
def floatBound : Nat := Nat.pow 2 1024 - Nat.pow 2 970

/-- Whether `m` times ten to the `e` is too large for 64 bits of floating point. -/
def overflows (m : Nat) (e : Int) : Bool :=
  let magnitude : Int := (Nat.toDigits 10 m).length + e
  if m = 0 ∨ magnitude < 308 then false
  else if 310 < magnitude then true
  else if 0 ≤ e then floatBound ≤ m * Nat.pow 10 e.toNat
  else floatBound * Nat.pow 10 (-e).toNat ≤ m

/-- A number with a fraction, an exponent or both. -/
def isFloat (cs : List Char) : Bool :=
  let (negative, rest) := unsigned cs
  if rest == "inf".toList || rest == "nan".toList then true
  else
    let isMark (c : Char) : Bool := c == 'e' || c == 'E'
    let (mantissa, exponent) := rest.span (!isMark ·)
    let (whole, fraction) := mantissa.span (· ≠ '.')
    let whole? := decimal? whole
    let fraction? := match fraction with
      | [] => some []
      | _ :: ds => digits? Char.isDigit ds
    let exponent? : Option Int := match exponent with
      | [] => some 0
      | _ :: es =>
        let (down, ds) := unsigned es
        (digits? Char.isDigit ds).map fun ds =>
          if down then -(valueOf 10 ds : Int) else valueOf 10 ds
    match whole?, fraction?, exponent? with
    | some w, some f, some e =>
      !(fraction.isEmpty && exponent.isEmpty) &&
        (negative || !overflows (valueOf 10 (w ++ f)) (e - f.length))
    | _, _, _ => false

/-- A number of two digits. -/
def twoDigits? : List Char → Option (Nat × List Char)
  | a :: b :: rest =>
    if a.isDigit && b.isDigit then some (valueOf 10 [a, b], rest) else none
  | _ => none

def daysIn (year month : Nat) : Nat :=
  if month = 2 then
    if year % 4 = 0 ∧ (year % 100 ≠ 0 ∨ year % 400 = 0) then 29 else 28
  else if month = 4 ∨ month = 6 ∨ month = 9 ∨ month = 11 then 30
  else 31

/-- What follows a date. -/
def afterDate? (cs : List Char) : Option (List Char) := do
  let (y1, cs) ← twoDigits? cs
  let (y2, cs) ← twoDigits? cs
  let cs ← match cs with
    | '-' :: cs => some cs
    | _ => none
  let (month, cs) ← twoDigits? cs
  let cs ← match cs with
    | '-' :: cs => some cs
    | _ => none
  let (day, cs) ← twoDigits? cs
  if 1 ≤ month ∧ month ≤ 12 ∧ 1 ≤ day ∧ day ≤ daysIn (100 * y1 + y2) month then some cs else none

/-- What follows an hour and a minute. -/
def afterMinute? (cs : List Char) : Option (List Char) := do
  let (hour, cs) ← twoDigits? cs
  let cs ← match cs with
    | ':' :: cs => some cs
    | _ => none
  let (minute, cs) ← twoDigits? cs
  if hour ≤ 23 ∧ minute ≤ 59 then some cs else none

/-- What follows a time of day. -/
def afterTime? (cs : List Char) : Option (List Char) := do
  let cs ← afterMinute? cs
  let cs ← match cs with
    | ':' :: cs => some cs
    | _ => none
  let (second, cs) ← twoDigits? cs
  if 60 < second then none
  else
    match cs with
    | '.' :: d :: rest => if d.isDigit then some (rest.dropWhile Char.isDigit) else none
    | '.' :: [] => none
    | _ => some cs

def isOffset : List Char → Bool
  | ['Z'] | ['z'] => true
  | '+' :: cs | '-' :: cs => afterMinute? cs == some []
  | _ => false

/-- A time of day, which may have an offset after it. -/
def isTimeWithOffset (cs : List Char) : Bool :=
  match afterTime? cs with
  | some [] => true
  | some cs => isOffset cs
  | none => false

def isDate (cs : List Char) : Bool := afterDate? cs == some []

/-- A date, a time of day, or both. -/
def isMoment (cs : List Char) : Bool :=
  match afterDate? cs with
  | some [] => true
  | some (c :: rest) => (c == 'T' || c == 't') && isTimeWithOffset rest
  | none => afterTime? cs == some []

end GoToJava.Toml
