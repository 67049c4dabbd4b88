import GoToJava.Forms.Expression
import GoToJava.Proofs.Java.Lexing

/-!
Java string literals and what they stand for. A raw string is written as a sum of such literals, one
for each line, and the sum has the value of the raw string.
-/

namespace GoToJava

open Forms

namespace Java

/-! ## Sums of string literals -/

/-- Where a reader of a sum stands: before a literal, within one, after a backslash, in an octal
escape that may have so many more digits, or after a literal. -/
inductive Spot where
  | before
  | within
  | escape
  | octal (value room : Nat)
  | after
  deriving DecidableEq, Repr

/-- What a backslash and a character stand for, octal escapes aside. -/
def escaped? : Char → Option Char
  | 'b' => some '\x08'
  | 's' => some ' '
  | 't' => some '\t'
  | 'n' => some '\n'
  | 'f' => some '\x0c'
  | 'r' => some '\r'
  | '"' => some '"'
  | '\'' => some '\''
  | '\\' => some '\\'
  | _ => none

def octalDigit? (c : Char) : Option Nat :=
  if '0' ≤ c ∧ c ≤ '7' then some (c.toNat - '0'.toNat) else none

/-- Reads a character of a literal. A literal ends in the line it starts in. -/
def Spot.stepWithin (c : Char) : Option (Spot × List Char) :=
  if c = '"' then some (after, [])
  else if c = '\\' then some (escape, [])
  else if c = '\n' ∨ c = '\r' then none
  else some (within, [c])

/-- Reads a character: where the reader stands then, and what is added to the value. -/
def Spot.step : Spot → Char → Option (Spot × List Char)
  | before, c =>
    if isBlank c then some (before, []) else if c = '"' then some (within, []) else none
  | within, c => stepWithin c
  | escape, c =>
    match escaped? c, octalDigit? c with
    | some d, _ => some (within, [d])
    | none, some n => some (octal n (if n ≤ 3 then 2 else 1), [])
    | none, none => none
  | octal value room, c =>
    match room, octalDigit? c with
    | more + 1, some n => some (octal (8 * value + n) more, [])
    | _, _ => (stepWithin c).map fun (next, out) => (next, Char.ofNat value :: out)
  | after, c => if isBlank c then some (after, []) else if c = '+' then some (before, []) else none

def valueFrom : Spot → List Char → Option (List Char)
  | .after, [] => some []
  | _, [] => none
  | spot, c :: cs =>
    (spot.step c).bind fun (next, out) => (valueFrom next cs).map (out ++ ·)

/-- The value of a sum of string literals. -/
def sumValue? (text : String) : Option (List Char) := valueFrom .before text.toList

/-- The characters that stand after a backslash, except for backslashes that stand after another
one. A Unicode escape has a `u` there. -/
def escapes : List Char → List Char
  | '\\' :: c :: cs => c :: escapes cs
  | _ :: cs => escapes cs
  | [] => []

end Java

/-! ## Raw strings -/

/-- The text with something else for each occurrence of a character. -/
def replaced (c : Char) (other : List Char) (cs : List Char) : List Char :=
  cs.flatMap fun x => if x = c then other else [x]

theorem rawChar_cases (c : Char) : c = '\\' ∨ c = '"' ∨ c = '\r' ∨ c = '\n' ∨
    (c ≠ '\\' ∧ c ≠ '"' ∧ c ≠ '\r' ∧ c ≠ '\n') ∧ rawChar c = [c] := by
  by_cases hslash : c = '\\'
  · exact .inl hslash
  by_cases hquote : c = '"'
  · exact .inr (.inl hquote)
  by_cases hreturn : c = '\r'
  · exact .inr (.inr (.inl hreturn))
  by_cases hline : c = '\n'
  · exact .inr (.inr (.inr (.inl hline)))
  · refine .inr (.inr (.inr (.inr ⟨⟨hslash, hquote, hreturn, hline⟩, ?_⟩)))
    simp [Forms.rawChar]

/-- No replacement touches what those before it have put in. -/
theorem flatMap_rawChar (cs : List Char) : cs.flatMap Forms.rawChar =
    replaced '\n' ['\\', 'n', '"', '+', '\n', '"'] (replaced '\r' []
      (replaced '"' ['\\', '"'] (replaced '\\' ['\\', '\\'] cs))) := by
  induction cs with
  | nil => rfl
  | cons c cs ih =>
    simp only [replaced, List.flatMap_cons, List.flatMap_append] at ih ⊢
    rw [ih]
    congr 1
    obtain rfl | rfl | rfl | rfl | ⟨⟨hslash, hquote, hreturn, hline⟩, hplain⟩ := rawChar_cases c
    · rfl
    · rfl
    · rfl
    · rfl
    · simp [hplain, hslash, hquote, hreturn, hline]

/-- Each character stands for itself, except for carriage returns. -/
theorem valueFrom_rawChar (c : Char) (rest : List Char) :
    Java.valueFrom .within (Forms.rawChar c ++ rest) =
      (Java.valueFrom .within rest).map ([c].filter (· ≠ '\r') ++ ·) := by
  obtain rfl | rfl | rfl | rfl | ⟨⟨hslash, hquote, hreturn, hline⟩, hplain⟩ := rawChar_cases c
  · simp [rawChar, Java.valueFrom, Java.Spot.step, Java.Spot.stepWithin, Java.escaped?,
      Function.comp_def]
  · simp [rawChar, Java.valueFrom, Java.Spot.step, Java.Spot.stepWithin, Java.escaped?,
      Function.comp_def]
  · simp [rawChar]
  · -- The literal ends with the line, and the next one starts.
    simp [rawChar, Java.valueFrom, Java.Spot.step, Java.Spot.stepWithin, Java.escaped?,
      Java.isBlank, Function.comp_def]
  · simp [hplain, Java.valueFrom, Java.Spot.step, Java.Spot.stepWithin, hslash, hquote, hreturn,
      hline]

theorem valueFrom_raw (cs : List Char) :
    Java.valueFrom .within (cs.flatMap Forms.rawChar ++ ['"']) = some (cs.filter (· ≠ '\r')) := by
  induction cs with
  | nil => rfl
  | cons c cs ih =>
    rw [List.flatMap_cons, List.append_assoc, valueFrom_rawChar, ih, Option.map_some,
      ← List.filter_append]
    rfl

theorem mem_escapes_raw {d : Char} (cs : List Char)
    (h : d ∈ Java.escapes (cs.flatMap rawChar ++ ['"'])) : d ∈ ['\\', '"', 'n'] := by
  induction cs with
  | nil => cases h
  | cons c cs ih =>
    rw [List.flatMap_cons, List.append_assoc] at h
    obtain rfl | rfl | rfl | rfl | ⟨⟨hslash, -⟩, hplain⟩ := rawChar_cases c
    · simp only [rawChar, List.cons_append, List.nil_append, Java.escapes, List.mem_cons] at h
      rcases h with rfl | h
      · decide
      · exact ih h
    · rcases List.mem_cons.1 h with rfl | h
      · decide
      · exact ih h
    · exact ih h
    · rcases List.mem_cons.1 h with rfl | h
      · decide
      · exact ih h
    · rw [hplain, List.singleton_append, Java.escapes] at h
      · exact ih h
      · rintro e es ⟨⟩ -
        exact hslash rfl

/-- The backquotes around a text without backquotes are taken off. -/
theorem rawString_of_quoted {text : String} (h : '\x60' ∉ text.toList) :
    (rawString ("\x60" ++ text ++ "\x60")).toList =
      '"' :: (text.toList.flatMap Forms.rawChar ++ ['"']) := by
  have hfront : ∀ cs : List Char, '\x60' ∉ cs → cs.dropWhile isBackquote = cs := by
    intro cs hcs
    cases cs with
    | nil => rfl
    | cons c cs =>
      have hc : c ≠ '\x60' := fun he => hcs (he ▸ List.mem_cons_self)
      simp [isBackquote, hc]
  have hinner : ((("\x60" ++ text ++ "\x60").toList.dropWhile isBackquote).reverse.dropWhile
      isBackquote).reverse = text.toList := by
    have htail : ((text.toList ++ ['\x60']).dropWhile isBackquote).reverse.dropWhile
        isBackquote = text.toList.reverse := by
      rw [List.dropWhile_append, hfront _ h]
      split
      · rename_i hempty
        rw [List.isEmpty_iff.1 hempty]
        rfl
      · rw [List.reverse_append]
        show (text.toList.reverse).dropWhile isBackquote = _
        exact hfront _ (by simpa using h)
    simp only [String.toList_append, List.append_assoc]
    show (((text.toList ++ ['\x60']).dropWhile isBackquote).reverse.dropWhile
        isBackquote).reverse = _
    rw [htail, List.reverse_reverse]
  unfold rawString
  rw [hinner]
  simp

/-- A raw string is written as a sum of string literals whose value is that of the raw string: all
of its text but the carriage returns. Only backslashes, quotes and line ends are escaped, so that
there is no Unicode escape in it. -/
theorem raw_strings_keep_their_value (text : String) (h : '\x60' ∉ text.toList) :
    let sum := rawString ("\x60" ++ text ++ "\x60")
    Java.sumValue? sum = some (text.toList.filter (· ≠ '\r')) ∧
      (∀ c ∈ Java.escapes sum.toList, c ∈ ['\\', '"', 'n']) ∧
      sum.toList = '"' :: (replaced '\n' ['\\', 'n', '"', '+', '\n', '"'] (replaced '\r' []
        (replaced '"' ['\\', '"'] (replaced '\\' ['\\', '\\'] text.toList))) ++ ['"']) := by
  have hsum := rawString_of_quoted h
  refine ⟨?_, ?_, ?_⟩
  · rw [Java.sumValue?, hsum]
    show (Java.valueFrom .within _).map _ = _
    rw [valueFrom_raw]
    rfl
  · intro c hc
    rw [hsum] at hc
    exact mem_escapes_raw _ hc
  · rw [hsum, flatMap_rawChar]

/-- Backslashes before a quote, a line end, a carriage return and a `u`. -/
theorem slashes_keep_their_value : '\x60' ∉ "\\\"\\\n\\\ru0041\\".toList ∧
    Java.sumValue? (rawString "\x60\\\"\\\n\\\ru0041\\\x60") = some "\\\"\\\n\\u0041\\".toList :=
  ⟨by decide, (raw_strings_keep_their_value "\\\"\\\n\\\ru0041\\" (by decide)).1⟩

end GoToJava
