import GoToJava.Grammar.Item

/-!
Tokens. Which tokens are looked for depends on which ones the reader admits at that point; of those
the longest is taken. White space before a token is skipped, unless a token that is admitted starts
there, and a comment may stand before any token.
-/

namespace GoToJava.Grammar

/-- What is found next in a text. -/
inductive Lexeme where
  | comment
  /-- A token. A keyword that is not reserved may turn out to be a plain word. -/
  | token (symbol : Nat) (soft : Bool)
  deriving Inhabited

/-- A lexeme with its place, counted in characters, and the text after it. -/
structure Found where
  lexeme : Lexeme
  start : Nat
  stop : Nat
  rest : List Char
  deriving Inhabited

/-- The tokens of a grammar. -/
structure Lexicon where
  /-- The class of words. -/
  word : Option (TokenClass × Nat)
  /-- Terminals that are fixed words. -/
  keywords : Std.HashMap String Nat
  reserved : List String
  /-- Fixed texts that are no words, by the code of their first character. -/
  marks : Std.HashMap Nat (List (List Char × Nat))
  classes : List (TokenClass × Nat)
  isBlank : Char → Bool
  comment : List Char → Option Nat
  /-- The token that the end of the text may count as, the token to be admitted beside it, and the
  token that must not be. -/
  atEnd : Option (Nat × Nat × Nat)

instance : Inhabited Lexicon :=
  ⟨⟨none, {}, [], {}, [], fun _ => false, fun _ => none, none⟩⟩

/-- The tokens of a grammar that is written out. -/
def lexicon (g : Grammar) (base : Productions) : Lexicon :=
  let numbered := base.terminals.toList.zipIdx
  let texts := numbered.filterMap fun (t, i) => match t with
    | .text s => some (s, i)
    | _ => none
  let classes := numbered.filterMap fun (t, i) => match t with
    | .ofClass c => some (c, i)
    | _ => none
  let word := classes.find? (·.1.name == g.word)
  let isWord (s : String) : Bool := word.any fun (c, _) => c.scan s.toList == some s.length
  { word
    keywords := texts.foldl (fun m (s, i) => if isWord s then m.insert s i else m) {}
    reserved := g.reserved
    marks := (texts.filter fun (s, _) => !isWord s).foldl (fun m (s, i) =>
      match s.toList with
      | c :: _ => m.insert c.toNat ((s.toList, i) :: m.getD c.toNat [])
      | [] => m) {}
    classes := classes.filter (·.1.name != g.word)
    isBlank := g.isBlank
    comment := g.comment
    atEnd := do
      let rule ← g.atEnd
      return (← texts.lookup rule.token, ← texts.lookup rule.beside, ← texts.lookup rule.refused) }

namespace Lexicon

variable (l : Lexicon)

/-- The word at the head of the text: a keyword where one is admitted, else a plain word. A reserved
word is never a plain one. -/
def wordAt (admitted : TokenSet) (cs : List Char) : Option (Nat × Lexeme) := do
  let (c, w) ← l.word
  let n ← c.scan cs
  let text := String.ofList (cs.take n)
  let isReserved := l.reserved.contains text
  match l.keywords[text]?.filter admitted.contains with
  | some k => return (n, .token k (!isReserved))
  | none => if isReserved || !admitted.contains w then none else return (n, .token w false)

/-- The longest admitted token at the head of the text, and whether no comment may take its place.
`fresh` says that nothing was skipped before it. -/
def tokenAt (admitted : TokenSet) (fresh : Bool) (cs : List Char) : Option (Nat × Lexeme × Bool) :=
  let ofClasses := l.classes.filterMap fun (c, i) =>
    if admitted.contains i && (fresh || !c.immediate) then
      (c.scan cs).map fun n => (n, Lexeme.token i false, c.greedy)
    else none
  match ofClasses.find? (·.2.2) with
  | some found => some found
  | none =>
    let ofTexts := match cs with
      | [] => []
      | c :: _ => (l.marks.getD c.toNat []).filterMap fun (text, i) =>
          if admitted.contains i && text.isPrefixOf cs then
            some (text.length, Lexeme.token i false, false)
          else none
    let ofWords := match l.wordAt admitted cs with
      | some (n, lexeme) => [(n, lexeme, false)]
      | none => []
    (ofTexts ++ ofWords ++ ofClasses).foldl (fun best found =>
      match best with
      | none => some found
      | some b => if b.1 < found.1 then some found else best) none

/-- What the end of the text counts as. -/
def endToken (admitted : TokenSet) : Option Nat :=
  match l.atEnd with
  | some (token, beside, refused) =>
    if admitted.contains token && admitted.contains beside && !admitted.contains refused then
      some token
    else if admitted.contains 0 then some 0 else none
  | none => if admitted.contains 0 then some 0 else none

/-- The next lexeme of a text that starts at the place `at_`. `fresh` says that nothing was skipped
before. -/
def scan (admitted : TokenSet) (fresh : Bool) (at_ : Nat) (cs : List Char) : Option Found :=
  let ending (n : Nat) (lexeme : Lexeme) : Found :=
    { lexeme, start := at_, stop := at_ + n, rest := cs.drop n }
  match l.tokenAt admitted fresh cs, l.comment cs with
  | some (n, lexeme, greedy), some m =>
    some (if !greedy && n < m then ending m .comment else ending n lexeme)
  | some (n, lexeme, _), none => some (ending n lexeme)
  | none, some m => some (ending m .comment)
  | none, none =>
    match cs with
    | [] => (l.endToken admitted).map fun token => ending 0 (.token token false)
    | c :: rest => if l.isBlank c then scan admitted false (at_ + 1) rest else none

end Lexicon

end GoToJava.Grammar
