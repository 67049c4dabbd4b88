/-!
TOML documents as trees of tables. A table may be extended after it was opened only as far as TOML
allows it, which depends on how it came to be.
-/

namespace GoToJava.Toml

/-- How a table came to be. -/
inductive Origin where
  /-- Opened by a header of its own. -/
  | header
  /-- Named on the way to another header. -/
  | implied
  /-- Named on the way to a key with dots. -/
  | dotted
  deriving DecidableEq, Repr, Inhabited

inductive Value where
  | string (text : String)
  | bool (b : Bool)
  | number (text : String)
  /-- A date, a time of day, or both. -/
  | moment (text : String)
  | array (items : List Value)
  /-- A table between braces, which is complete. -/
  | inline (entries : List (String × Value))
  | table (origin : Origin) (entries : List (String × Value))
  /-- A list of tables with headers, of which the last is open. -/
  | tables (items : List (List (String × Value)))
  deriving Inhabited

abbrev Entries := List (String × Value)

namespace Entries

/-- The entries with another value for a key that stands. -/
def replace (key : String) (value : Value) (entries : Entries) : Entries :=
  entries.map fun (k, v) => if k = key then (k, value) else (k, v)

/-- Adds an entry for a key that does not stand yet. -/
def add? (key : String) (value : Value) (entries : Entries) : Option Entries :=
  match entries.lookup key with
  | none => some (entries ++ [(key, value)])
  | some _ => none

/-- Changes the last of some tables. -/
def changeLast (change : Entries → Option Entries) :
    List Entries → Option (List Entries)
  | [] => none
  | [last] => (change last).map fun e => [e]
  | first :: rest => (changeLast change rest).map (first :: ·)

/-- Adds an entry below some tables, which a key with dots names. Such tables can only be extended
by keys with dots. -/
def addBelow? (key : String) (value : Value) : List String → Entries → Option Entries
  | [], entries => entries.add? key value
  | k :: ks, entries =>
    match entries.lookup k with
    | none =>
      (addBelow? key value ks []).map fun inner => entries ++ [(k, .table .dotted inner)]
    | some (.table .dotted inner) =>
      (addBelow? key value ks inner).map fun inner => entries.replace k (.table .dotted inner)
    | some (.table .implied inner) =>
      if ks.isEmpty then none
      else (addBelow? key value ks inner).map fun inner => entries.replace k (.table .implied inner)
    | some (.tables items) =>
      if ks.isEmpty then none
      else (changeLast (addBelow? key value ks) items).map fun items =>
        entries.replace k (.tables items)
    | some _ => none

/-- Changes the table that a header names, and makes the tables on the way to it. -/
def changeAt? (change : Entries → Option Entries) : List String → Entries → Option Entries
  | [], entries => change entries
  | k :: ks, entries =>
    match entries.lookup k with
    | none => (changeAt? change ks []).map fun inner => entries ++ [(k, .table .implied inner)]
    | some (.table origin inner) =>
      (changeAt? change ks inner).map fun inner => entries.replace k (.table origin inner)
    | some (.tables items) =>
      (changeLast (changeAt? change ks) items).map fun items => entries.replace k (.tables items)
    | some _ => none

/-- Opens a table by its header. Only a table that was no more than implied can be opened. -/
def openTable? (path : List String) (entries : Entries) : Option Entries :=
  match path.getLast? with
  | none => none
  | some key => changeAt? (fun es => match es.lookup key with
      | none => some (es ++ [(key, .table .header [])])
      | some (.table .implied inner) => some (es.replace key (.table .header inner))
      | some _ => none) path.dropLast entries

/-- Opens one more table of a list of tables. -/
def openItem? (path : List String) (entries : Entries) : Option Entries :=
  match path.getLast? with
  | none => none
  | some key => changeAt? (fun es => match es.lookup key with
      | none => some (es ++ [(key, .tables [[]])])
      | some (.tables items) => some (es.replace key (.tables (items ++ [[]])))
      | some _ => none) path.dropLast entries

end Entries

end GoToJava.Toml
