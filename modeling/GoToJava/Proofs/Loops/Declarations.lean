import GoToJava.Java.Primitive
import GoToJava.Task
import Mathlib.Data.List.Basic

/-!
Variables of loops. A loop declares some in its head and others at the top of its body. Each is
declared once and stands for what it should, unless names are taken twice, a number has elements, or
a value of an unknown type has keys.
-/

namespace GoToJava

open Go (Expr)

/-! ## Loops in Java -/

namespace Java

/-- What a variable stands for in a round of a loop. -/
inductive Role where
  | index
  | key
  | element
  /-- A key together with its element. -/
  | entry
  deriving DecidableEq, Repr

/-- How far a loop counts. -/
inductive Limit where
  | length
  | stringLength
  | number

def Limit.suffix : Limit → String
  | length => ".length"
  | stringLength => ".length()"
  | number => ""

/-- What a loop goes through. -/
inductive Parts where
  | elements
  | letters
  | entries

def Parts.suffix : Parts → String
  | elements => ""
  | letters => ".toCharArray()"
  | entries => ".entrySet()"

/-- The head of a loop over a value. -/
inductive LoopHead where
  | counting (name : String) (limit : Limit)
  | each (type name : String) (parts : Parts)

namespace LoopHead

/-- The text of the head, given that of the value. -/
def text (value : String) : LoopHead → String
  | counting name limit =>
    "for (int " ++ name ++ " = 0; " ++ name ++ " < " ++ value ++ limit.suffix ++ "; " ++ name ++
      "++)"
  | each type name parts => "for (" ++ type ++ " " ++ name ++ " : " ++ value ++ parts.suffix ++ ")"

-- Finding these equations takes long, since texts are unfolded to their bytes.
theorem text_counting (value name : String) (limit : Limit) : text value (counting name limit) =
    "for (int " ++ name ++ " = 0; " ++ name ++ " < " ++ value ++ limit.suffix ++ "; " ++ name ++
      "++)" :=
  rfl

theorem text_each (value type name : String) (parts : Parts) : text value (each type name parts) =
    "for (" ++ type ++ " " ++ name ++ " : " ++ value ++ parts.suffix ++ ")" :=
  rfl

/-- The variable of the head, and what it stands for. -/
def own : LoopHead → String × Option Role
  | counting name _ => (name, some .index)
  | each _ name .entries => (name, some .entry)
  | each _ name _ => (name, some .element)

end LoopHead

/-- What a variable has as its initial value. -/
inductive Source where
  | keyOf (entry : String)
  | valueOf (entry : String)
  | elementAt (index : String)
  | letterAt (index : String)

namespace Source

def text (value : String) : Source → String
  | keyOf entry => entry ++ ".getKey()"
  | valueOf entry => entry ++ ".getValue()"
  | elementAt index => value ++ "[" ++ index ++ "]"
  | letterAt index => value ++ ".charAt(" ++ index ++ ")"

/-- What the source is in a round, given what the variables before it stand for. -/
def role (known : List (String × Option Role)) : Source → Option Role
  | keyOf entry => if known.lookup entry = some (some .entry) then some .key else none
  | valueOf entry => if known.lookup entry = some (some .entry) then some .element else none
  | elementAt index | letterAt index =>
    if known.lookup index = some (some .index) then some .element else none

end Source

/-- The declaration of a variable in the body of a loop. -/
structure Declaration where
  type : String
  name : String
  source : Source

def Declaration.text (value : String) (d : Declaration) : String :=
  d.type ++ " " ++ d.name ++ " = " ++ d.source.text value ++ ";"

/-- The variables of a loop in the order of their declaration, and what they stand for. -/
def LoopHead.names (head : LoopHead) (body : List Declaration) : List (String × Option Role) :=
  body.foldl (fun known d => known ++ [(d.name, d.source.role known)]) [head.own]

/-- The name is declared once, and stands for this. -/
def Declares (names : List (String × Option Role)) (name : String) (role : Role) : Prop :=
  names.filter (·.1 = name) = [(name, some role)]

@[simp]
theorem not_declares_nil (name : String) (role : Role) : ¬Declares [] name role := by
  simp [Declares]

/-- A name is declared by the first declaration or after it, and not both. -/
@[simp]
theorem declares_cons (n : String) (r : Option Role) (rest : List (String × Option Role))
    (name : String) (role : Role) :
    Declares ((n, r) :: rest) name role ↔
      if n = name then r = some role ∧ ∀ d ∈ rest, d.1 ≠ name else Declares rest name role := by
  unfold Declares
  rw [List.filter_cons]
  by_cases h : n = name
  · simp [h]
  · simp [h]

end Java

/-! ## Kinds of values -/

/-- What a loop makes of the type of its value. -/
inductive RangeKind where
  | map (key value : Expr)
  | array (element : Expr)
  | string
  | integer
  | unknown

def RangeKind.of : Option Expr → RangeKind
  | some (.mapType key value) => .map key value
  | some (.arrayType _ e) | some (.ellipsis e) => .array e
  | some (.ident "string") => .string
  | some (.ident name) => if Java.isInteger name then .integer else .unknown
  | _ => .unknown

theorem RangeKind.of_ident {name : String} (h : name ≠ "string") :
    of (some (.ident name)) = if Java.isInteger name then .integer else .unknown := by
  unfold of
  split <;> rename_i heq
  · cases heq
  · cases heq
  · cases heq
  · cases heq
    exact absurd rfl h
  · cases heq
    rfl
  · exact absurd rfl (heq name)

theorem RangeKind.of_other {type : Option Expr} (hmap : ∀ k v, type ≠ some (.mapType k v))
    (harray : ∀ n e, type ≠ some (.arrayType n e)) (hellipsis : ∀ e, type ≠ some (.ellipsis e))
    (hident : ∀ name, type ≠ some (.ident name)) : of type = .unknown := by
  unfold of
  split
  · exact absurd rfl (hmap _ _)
  · exact absurd rfl (harray _ _)
  · exact absurd rfl (hellipsis _)
  · exact absurd rfl (hident _)
  · exact absurd rfl (hident _)
  · rfl

/-- What the key of a loop has to stand for. -/
def RangeKind.KeyRole : RangeKind → Java.Role → Prop
  | .map .., role => role = .key
  | .unknown, role => role = .key ∨ role = .index
  | _, role => role = .index

namespace RangeLoop

variable (loop : RangeLoop)

/-- The head of the loop, with the text of a type. -/
def head (kind : RangeKind) (type : String) : Java.LoopHead :=
  match kind with
  | .map .. => .each type "entry" .entries
  | .array _ =>
    match loop.key with
    | some key => .counting key .length
    | none => .each type (loop.value.getD "ignored") .elements
  | .string =>
    match loop.key with
    | some key => .counting key .stringLength
    | none => .each "char" (loop.value.getD "ignored") .letters
  | .integer => .counting (loop.key.getD "i") .number
  | .unknown => .each "Object" ((loop.value <|> loop.key).getD "ignored") .elements

/-- The declarations at the top of the loop's body, with the texts of their types. -/
def declarations (kind : RangeKind) (keyType valueType : String) : List Java.Declaration :=
  match kind with
  | .map .. =>
    (loop.key.toList.map fun key => ⟨keyType, key, .keyOf "entry"⟩) ++
      loop.value.toList.map fun value => ⟨valueType, value, .valueOf "entry"⟩
  | .array _ =>
    match loop.key, loop.value with
    | some key, some value => [⟨valueType, value, .elementAt key⟩]
    | _, _ => []
  | .string =>
    match loop.key, loop.value with
    | some key, some value => [⟨"char", value, .letterAt key⟩]
    | _, _ => []
  | _ => []

/-- Each named variable of the loop is declared once, and stands for what it has to. -/
def Declared (kind : RangeKind) (names : List (String × Option Java.Role)) : Prop :=
  (∀ key ∈ loop.key, ∃ role, kind.KeyRole role ∧ Java.Declares names key role) ∧
    ∀ value ∈ loop.value, Java.Declares names value .element

/-- The names fit the kind of the value. -/
def Fits (kind : RangeKind) : Prop :=
  match kind with
  | .map .. => loop.key ≠ some "entry" ∧ loop.value ≠ some "entry" ∧
      (loop.key.isSome → loop.key ≠ loop.value)
  | .array _ | .string => loop.key.isSome → loop.key ≠ loop.value
  | .integer => loop.value = none
  | .unknown => loop.key = none

/-- If both find the same kind, the variables are declared just where their names fit it. -/
theorem declared_iff (kind : RangeKind) (type keyType valueType : String) :
    loop.Declared kind ((loop.head kind type).names
      (loop.declarations kind keyType valueType)) ↔ loop.Fits kind := by
  obtain ⟨key, value, iterable⟩ := loop
  unfold Declared Fits
  -- The names of a loop are those of its head and its body, in all cases of a key and a value.
  cases kind <;> cases key <;> cases value <;>
    simp [head, declarations, Java.LoopHead.names, Java.LoopHead.own, Java.Source.role,
      RangeKind.KeyRole]
  all_goals grind

end RangeLoop

end GoToJava
