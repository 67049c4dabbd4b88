import Mathlib.Data.List.Basic

/-!
The tokens of Java texts. A token is as long as it can be, so two operators that stand side by side
may be read as one. Texts can be read piece by piece wherever a blank or a separator stands between
the pieces.
-/

namespace GoToJava.Java

/-! ## Tokens -/

inductive Token where
  /-- A name, a keyword, a number or a literal. -/
  | word (text : List Char)
  | operator (text : List Char)
  | separator (c : Char)
  deriving DecidableEq, Repr

def isBlank (c : Char) : Bool := c == ' ' || c == '\t' || c == '\n' || c == '\r'

def isWordChar (c : Char) : Bool :=
  c.isAlphanum || c == '_' || c == '$' || decide (0x80 ≤ c.toNat)

def isSeparator (c : Char) : Bool :=
  ['(', ')', '[', ']', '\x7b', '\x7d', ',', ';', '.'].contains c

def isQuote (c : Char) : Bool := c == '"' || c == '\''

/-- The operators of Java. What an operator starts with is an operator too. -/
def operators : List (List Char) :=
  [['='], ['>'], ['<'], ['!'], ['~'], ['?'], [':'], ['+'], ['-'], ['*'], ['/'], ['&'], ['|'], ['^'],
    ['%'], ['-', '>'], ['=', '='], ['>', '='], ['<', '='], ['!', '='], ['&', '&'], ['|', '|'],
    ['+', '+'], ['-', '-'], ['<', '<'], ['>', '>'], ['>', '>', '>'], ['+', '='], ['-', '='],
    ['*', '='], ['/', '='], ['&', '='], ['|', '='], ['^', '='], ['%', '='], ['<', '<', '='],
    ['>', '>', '='], ['>', '>', '>', '='], [':', ':']]

/-- What was read of a token so far. -/
inductive Part where
  | nothing
  | word (text : List Char)
  | operator (text : List Char)
  deriving DecidableEq, Repr

variable {c : Char} {cs : List Char} {ts : List Token} {next part : Part} {s : String}

/-- The token that ends here. -/
def Part.tokens : Part → List Token
  | nothing => []
  | word text => [.word text]
  | operator text => [.operator text]

/-- A number goes on with the sign of its exponent. -/
def isExponentSign (text : List Char) (c : Char) : Bool :=
  let hex := ['0', 'x'].isPrefixOf text || ['0', 'X'].isPrefixOf text
  let marks := if hex then ['p', 'P'] else ['e', 'E']
  (c == '+' || c == '-') && text.head?.any Char.isDigit && text.getLast?.any marks.contains

/-- The longer token, if a character still belongs to it. -/
def Part.extend? : Part → Char → Option Part
  | nothing, _ => none
  | word text, c =>
    if isWordChar c || isExponentSign text c then some (word (text ++ [c])) else none
  | operator text, c =>
    if operators.contains (text ++ [c]) then some (operator (text ++ [c])) else none

/-- What starts with a character, and whether it is a whole token. -/
def start (c : Char) : Option (Part × List Token) :=
  if isBlank c then some (.nothing, [])
  else if isWordChar c then some (.word [c], [])
  else if isSeparator c then some (.nothing, [.separator c])
  else if operators.contains [c] then some (.operator [c], [])
  else none

def startsComment (part : Part) (c : Char) : Bool :=
  part == .operator ['/'] && (c == '/' || c == '*')

/-- Where a reader stands: at a token, in a literal or in a comment. -/
inductive Stand where
  | token (part : Part)
  | literal (quote : Char) (escaped : Bool) (text : List Char)
  | comment (block : Bool) (star : Bool)
  deriving DecidableEq, Repr

/-- Reads a character: where the reader stands then, and the tokens that end before. -/
def Stand.step : Stand → Char → Option (Stand × List Token)
  | token part, c =>
    if isQuote c then some (literal c false [c], part.tokens)
    else if startsComment part c then some (comment (c == '*') false, [])
    else
      match part.extend? c with
      | some longer => some (token longer, [])
      | none => (start c).map fun (next, tokens) => (token next, part.tokens ++ tokens)
  | literal quote escaped text, c =>
    if c = '\n' then none
    else if escaped then some (literal quote false (text ++ [c]), [])
    else if c = quote then some (token .nothing, [.word (text ++ [c])])
    else some (literal quote (c == '\\') (text ++ [c]), [])
  | comment false _, c => some (if c = '\n' then token .nothing else comment false false, [])
  | comment true star, c =>
    some (if star && c == '/' then token .nothing else comment true (c == '*'), [])

def scanFrom : Stand → List Char → Option (Stand × List Token)
  | s, [] => some (s, [])
  | s, c :: cs =>
    (s.step c).bind fun (next, tokens) =>
      (scanFrom next cs).map fun (last, rest) => (last, tokens ++ rest)

/-- The tokens of a text in which every literal and every block comment ends. -/
def finish : Stand × List Token → Option (List Token)
  | (.token part, tokens) => some (tokens ++ part.tokens)
  | _ => none

/-- The tokens of a text. A literal is one word, and comments are left out. -/
def scan (text : String) : Option (List Token) :=
  (scanFrom (.token .nothing) text.toList).bind finish

/-! ## Reading piece by piece -/

theorem scanFrom_append (s : Stand) (cs ds : List Char) :
    scanFrom s (cs ++ ds) = (scanFrom s cs).bind fun (m, ts) =>
      (scanFrom m ds).map fun (last, us) => (last, ts ++ us) := by
  induction cs generalizing s with
  | nil => simp [scanFrom]
  | cons c cs ih =>
    rw [List.cons_append, scanFrom, scanFrom]
    cases s.step c with
    | none => rfl
    | some next =>
      simp only [Option.bind_some, ih]
      cases scanFrom next.1 cs with
      | none => rfl
      | some m =>
        simp only [Option.bind_some, Option.map_some, Option.map_map]
        congr 1
        funext last
        simp

/-- After the characters `cs` the part `next` is read, and the tokens before it are known. -/
def Reads (part : Part) (cs : List Char) (next : Part) (tokens : List Token) : Prop :=
  scanFrom (.token part) cs = some (.token next, tokens)

theorem reads_nil (part : Part) : Reads part [] part [] := rfl

theorem reads_append {last : Part} {ds : List Char} {us : List Token} (h : Reads part cs next ts)
    (h' : Reads next ds last us) : Reads part (cs ++ ds) last (ts ++ us) := by
  unfold Reads at h h' ⊢
  rw [scanFrom_append, h]
  simp [h']

theorem reads_of_step (h : (Stand.token part).step c = some (.token next, ts)) :
    Reads part [c] next ts := by
  simp [Reads, scanFrom, h]

theorem scan_of_reads (h : Reads .nothing s.toList next ts) :
    scan s = some (ts ++ next.tokens) := by
  unfold Reads at h
  rw [scan, h]
  rfl

/-! ## Characters and tokens -/

/-- A character that belongs to no operator and starts no literal. -/
def isPlain (c : Char) : Bool := isBlank c || isWordChar c || isSeparator c

theorem not_operator (text : List Char) (hc : isPlain c = true) :
    operators.contains (text ++ [c]) = false := by
  have hnone : (operators.any fun o => o.any isPlain) = false := by decide
  rw [Bool.eq_false_iff]
  intro hmem
  have hany : (operators.any fun o => o.any isPlain) = true :=
    List.any_eq_true.2 ⟨text ++ [c], by simpa using hmem, List.any_eq_true.2 ⟨c, by simp, hc⟩⟩
  rw [hnone] at hany
  cases hany

theorem ne_of_plain {d : Char} (hd : isPlain d = false) (hc : isPlain c = true) : c ≠ d := by
  rintro rfl
  rw [hd] at hc
  cases hc

/-- Such a character goes on with the token before it, or ends it and starts another one. -/
theorem step_of_plain (part : Part) (hc : isPlain c = true) :
    (Stand.token part).step c = match part.extend? c with
      | some longer => some (.token longer, [])
      | none => (start c).map fun (next, tokens) => (.token next, part.tokens ++ tokens) := by
  have hquote : isQuote c = false := by
    simp [isQuote, ne_of_plain (by decide : isPlain '"' = false) hc,
      ne_of_plain (by decide : isPlain '\'' = false) hc]
  have hcomment : startsComment part c = false := by
    simp [startsComment, ne_of_plain (by decide : isPlain '/' = false) hc,
      ne_of_plain (by decide : isPlain '*' = false) hc]
  rw [Stand.step, hquote, hcomment]
  rfl

theorem not_word_of_blank (h : isBlank c = true) : isWordChar c = false := by
  simp only [isBlank, Bool.or_eq_true, beq_iff_eq] at h
  rcases h with ((rfl | rfl) | rfl) | rfl
  all_goals decide

theorem start_of_separator (hc : isSeparator c = true) :
    isWordChar c = false ∧ start c = some (.nothing, [.separator c]) := by
  have hmem : c ∈ ['(', ')', '[', ']', '\x7b', '\x7d', ',', ';', '.'] := List.contains_iff_mem.1 hc
  simp only [List.mem_cons, List.not_mem_nil, or_false] at hmem
  rcases hmem with rfl | rfl | rfl | rfl | rfl | rfl | rfl | rfl | rfl <;> decide

/-- A blank or a separator: no token goes on with it. -/
def isBreak (c : Char) : Bool := isBlank c || isSeparator c

theorem isPlain_of_break (hc : isBreak c = true) : isPlain c = true := by
  simp only [isBreak, Bool.or_eq_true] at hc
  rcases hc with hc | hc <;> simp [isPlain, hc]

theorem extend?_of_break (part : Part) (hc : isBreak c = true) : part.extend? c = none := by
  have hplain := isPlain_of_break hc
  cases part with
  | nothing => rfl
  | word text =>
    have hword : isWordChar c = false := by
      simp only [isBreak, Bool.or_eq_true] at hc
      exact hc.elim not_word_of_blank fun h => (start_of_separator h).1
    have hsign : isExponentSign text c = false := by
      simp [isExponentSign, ne_of_plain (by decide : isPlain '+' = false) hplain,
        ne_of_plain (by decide : isPlain '-' = false) hplain]
    simp [Part.extend?, hword, hsign]
  | operator text => simp only [Part.extend?, not_operator text hplain,
    Bool.false_eq_true, if_false]

/-- A break ends a token, and is read as if nothing stood before it. -/
theorem step_of_break (part : Part) (hc : isBreak c = true) :
    (Stand.token part).step c = (start c).map fun (next, tokens) =>
      (.token next, part.tokens ++ tokens) := by
  rw [step_of_plain part (isPlain_of_break hc), extend?_of_break part hc]

theorem reads_blank (part : Part) (hc : isBlank c = true) :
    Reads part [c] .nothing part.tokens := by
  refine reads_of_step ?_
  rw [step_of_break part (by simp [isBreak, hc]), start, if_pos hc]
  simp

theorem reads_blanks (h : ∀ c ∈ cs, isBlank c = true) : Reads .nothing cs .nothing [] := by
  induction cs with
  | nil => exact reads_nil _
  | cons c cs ih =>
    have hrest := ih fun x hx => h x (List.mem_cons_of_mem _ hx)
    exact reads_append (reads_blank .nothing (h c List.mem_cons_self)) hrest

theorem reads_separator (part : Part) (hc : isSeparator c = true) :
    Reads part [c] .nothing (part.tokens ++ [.separator c]) := by
  refine reads_of_step ?_
  rw [step_of_break part (by simp [isBreak, hc]), (start_of_separator hc).2]
  rfl

theorem reads_inWord (text : List Char) (h : ∀ c ∈ cs, isWordChar c = true) :
    Reads (.word text) cs (.word (text ++ cs)) [] := by
  induction cs generalizing text with
  | nil =>
    rw [List.append_nil]
    exact reads_nil _
  | cons c cs ih =>
    have hc := h c List.mem_cons_self
    have hstep : (Stand.token (.word text)).step c = some (.token (.word (text ++ [c])), []) := by
      rw [step_of_plain _ (by simp [isPlain, hc])]
      simp [Part.extend?, hc]
    have hrest := ih (text ++ [c]) fun x hx => h x (List.mem_cons_of_mem _ hx)
    rw [List.append_assoc] at hrest
    exact reads_append (reads_of_step hstep) hrest

theorem reads_word (hpart : ∀ text, part ≠ .word text) (hne : cs ≠ [])
    (h : ∀ c ∈ cs, isWordChar c = true) : Reads part cs (.word cs) part.tokens := by
  cases cs with
  | nil => exact absurd rfl hne
  | cons c cs =>
    have hc := h c List.mem_cons_self
    have hplain : isPlain c = true := by simp [isPlain, hc]
    have hblank : isBlank c = false := by
      rw [Bool.eq_false_iff]
      intro hb
      rw [not_word_of_blank hb] at hc
      cases hc
    have hextend : part.extend? c = none := by
      cases part with
      | nothing => rfl
      | word text => exact absurd rfl (hpart text)
      | operator text =>
        rw [Part.extend?, not_operator text hplain]
        rfl
    have hstep : (Stand.token part).step c = some (.token (.word [c]), part.tokens) := by
      rw [step_of_plain part hplain, hextend]
      simp [start, hblank, hc]
    have hrest := reads_inWord [c] fun x hx => h x (List.mem_cons_of_mem _ hx)
    have hall := reads_append (reads_of_step hstep) hrest
    rw [List.append_nil] at hall
    exact hall

/-! ## Texts side by side -/

/-- Where the next character only adds tokens before those that it would give elsewhere, so does the
rest of the text. -/
theorem scanFrom_of_step {s s' : Stand} (cs : List Char)
    (h : s'.step c = (s.step c).map fun (next, tokens) => (next, ts ++ tokens)) :
    scanFrom s' (c :: cs) = (scanFrom s (c :: cs)).map fun (last, tokens) =>
      (last, ts ++ tokens) := by
  rw [scanFrom, scanFrom, h]
  cases s.step c with
  | none => rfl
  | some next =>
    simp only [Option.map_some, Option.bind_some, Option.map_map]
    congr 1
    funext last
    simp

theorem scan_eq_some {text : String} (h : scan text = some ts) :
    ∃ part us, scanFrom (.token .nothing) text.toList = some (.token part, us) ∧
      ts = us ++ part.tokens := by
  obtain ⟨⟨last, us⟩, hread, hfinish⟩ := Option.bind_eq_some_iff.1 h
  cases last with
  | token part => exact ⟨part, us, hread, by simpa [finish] using hfinish.symm⟩
  | literal quote escaped inner | comment block star => cases hfinish

/-- The text starts with a break, or there is none of it. -/
def StartsApart (text : String) : Prop := ∀ c ∈ text.toList.head?, isBreak c = true

theorem bind_finish (ts : List Token) (read : Option (Stand × List Token)) :
    (read.map fun (last, tokens) => (last, ts ++ tokens)).bind finish =
      (read.bind finish).map (ts ++ ·) := by
  rcases read with _ | ⟨_ | _ | _, rest⟩ <;> simp [finish]

/-- What starts with a break is read apart from what stands before. -/
theorem scan_append {t : String} (hs : scan s = some ts) (ht : StartsApart t) :
    scan (s ++ t) = (scan t).map (ts ++ ·) := by
  obtain ⟨part, us, hread, rfl⟩ := scan_eq_some hs
  rw [scan, scan, String.toList_append, scanFrom_append, hread]
  cases hcs : t.toList with
  | nil => simp [scanFrom, finish, Part.tokens]
  | cons c cs =>
    have hc : isBreak c = true := ht c (by simp [hcs])
    have hstep : (Stand.token part).step c = ((Stand.token .nothing).step c).map
        fun (next, tokens) => (next, part.tokens ++ tokens) := by
      rw [step_of_break part hc, step_of_break .nothing hc, Option.map_map]
      rfl
    refine (bind_finish us _).trans ?_
    rw [scanFrom_of_step cs hstep, bind_finish, Option.map_map]
    simp only [Function.comp_def, List.append_assoc]

/-- What is read to its end is read apart from what follows. -/
theorem scan_append_of_done (ts : List Token) (t : String)
    (hs : scanFrom (.token .nothing) s.toList = some (.token .nothing, ts)) :
    scan (s ++ t) = (scan t).map (ts ++ ·) := by
  rw [scan, scan, String.toList_append, scanFrom_append, hs]
  exact bind_finish ts _

theorem step_complement (c : Char) :
    (Stand.token (.operator ['~'])).step c = ((Stand.token .nothing).step c).map
      fun (next, tokens) => (next, [.operator ['~']] ++ tokens) := by
  have hextend : operators.contains ['~', c] = false := by
    have hnone : ∀ o ∈ operators, o.head? = some '~' → o.length = 1 := by decide
    rw [Bool.eq_false_iff]
    intro h
    have hone := hnone _ (List.contains_iff_mem.1 h) rfl
    cases hone
  have hsign : startsComment (.operator ['~']) c = false := rfl
  have hnothing : startsComment .nothing c = false := rfl
  simp only [Stand.step, Part.extend?, Part.tokens, hsign, hnothing, List.singleton_append, hextend,
    Bool.false_eq_true, if_false]
  split
  · rfl
  · rw [Option.map_map]
    rfl

theorem scan_complement (text : String) :
    scan ("~" ++ text) = (scan text).map (.operator ['~'] :: ·) := by
  have hsign : scanFrom (.token .nothing) "~".toList = some (.token (.operator ['~']), []) := by
    decide
  rw [scan, scan, String.toList_append, scanFrom_append, hsign]
  refine (bind_finish [] _).trans ?_
  cases text.toList with
  | nil => rfl
  | cons c cs =>
    rw [scanFrom_of_step cs (step_complement c), bind_finish, Option.map_map]
    rfl

end GoToJava.Java
