import GoToJava.Grammar.Rule
import Std.Data.HashMap

/-!
Rules written out as productions: every choice is made, every repetition has a symbol of its own,
and names are numbers.
-/

namespace GoToJava.Grammar

/-- One part of a production. -/
structure Step where
  symbol : Nat
  field : Option String := none
  shown : Option String := none
  level : Int := 0
  side : Option Side := none
  deriving DecidableEq, Hashable, Inhabited

/-- One way to build the symbol `head`. -/
structure Production where
  head : Nat
  steps : Array Step
  weight : Int := 0
  deriving Inhabited

/-- A symbol that stands for one token. -/
inductive Terminal where
  | endOfText
  | text (s : String)
  | ofClass (c : TokenClass)
  deriving Inhabited

/-- A grammar in numbers. The symbols below `terminals.size` are terminals, those from there up to
`repetitions` are rules, and the others are repetitions. The end of the text is number 0. -/
structure Productions where
  terminals : Array Terminal
  repetitions : Nat
  /-- The kinds of all symbols, in the order of their numbers. -/
  kinds : Array String
  /-- Which symbols leave no node of their own. -/
  hidden : Array Bool
  /-- Which symbols are shown as nodes with a kind, not as bare texts. -/
  named : Array Bool
  productions : Array Production
  deriving Inhabited

namespace Rule

/-- The fixed texts of a rule, in order. -/
def texts : Rule → List String
  | text s => [s]
  | ref _ => []
  | seq rs => rs.flatMap texts
  | alt rs => rs.flatMap texts
  | star r | field _ r | shown _ r | prec _ _ r | weigh _ r => r.texts

/-- The rule with the rules of `table` put in place of their names. -/
def inline (table : String → Option Rule) : Rule → Rule
  | text s => text s
  | ref n => (table n).getD (ref n)
  | seq rs => seq (rs.map (inline table))
  | alt rs => alt (rs.map (inline table))
  | star r => star (r.inline table)
  | field n r => field n (r.inline table)
  | shown k r => shown k (r.inline table)
  | prec l s r => prec l s (r.inline table)
  | weigh w r => weigh w (r.inline table)

end Rule

/-- What the surrounding rule says about the steps of a part. -/
structure Setting where
  field : Option String := none
  shown : Option String := none
  level : Int := 0
  side : Option Side := none

/-- The choices of a rule, all made: the steps and the weight of each way. -/
abbrev Ways := List (List Step × Int)

/-- Productions in the making: repetitions found so far, each with what it repeats. -/
structure Expansion where
  texts : Std.HashMap String Nat
  names : Std.HashMap String Nat
  /-- The number of the first repetition. -/
  base : Nat
  repetitions : Array (String × Ways) := #[]

/-- All ways to make the choices of a rule. Repetitions of the same parts share one symbol. -/
def Rule.ways (setting : Setting) (owner : String) : Rule → StateM Expansion Ways
  | .text s => return [([place ((← get).texts.getD s 0)], 0)]
  | .ref n => return [([place ((← get).names.getD n 0)], 0)]
  | .seq rs => rs.foldlM (fun before r => do
      let ways ← r.ways setting owner
      return before.flatMap fun (s, w) => ways.map fun (s', w') => (s ++ s', heavier w w'))
      [([], 0)]
  | .alt rs => do
      let ways ← rs.mapM (·.ways setting owner)
      return ways.flatten
  | .star r => do
      let inner ← r.ways {} owner
      let state ← get
      match state.repetitions.findIdx? (·.2 == inner) with
      | some i => return [([place (state.base + i)], 0), ([], 0)]
      | none =>
        set { state with repetitions := state.repetitions.push (s!"_{owner}_repeat", inner) }
        return [([place (state.base + state.repetitions.size)], 0), ([], 0)]
  | .field n r => r.ways { setting with field := some n } owner
  | .shown k r => r.ways { setting with shown := some k } owner
  | .prec l s r => r.ways { setting with level := l, side := s } owner
  | .weigh w r => do
      let ways ← r.ways setting owner
      return ways.map fun (s, w') => (s, heavier w' w)
where
  place (symbol : Nat) : Step :=
    { symbol, field := setting.field, shown := setting.shown,
      level := setting.level, side := setting.side }
  heavier (a b : Int) : Int := if a.natAbs < b.natAbs then b else a

/-- The kind that all uses of a symbol show it as, if they agree on one. -/
def steadyKind : List (Option String) → Option String
  | [] => none
  | kind :: others => if others.all (· == kind) then kind else none

/-- A symbol that is shown as the same kind wherever it is used has that kind itself. -/
def Productions.steady (p : Productions) : Productions :=
  let uses := p.productions.foldl (fun uses production =>
    production.steps.foldl (fun uses s => uses.modify s.symbol (s.shown :: ·)) uses)
    (p.kinds.map fun _ => ([] : List (Option String)))
  let kinds := uses.map steadyKind
  let kindOf (symbol : Nat) : Option String := (kinds[symbol]?).join
  { p with
    kinds := p.kinds.mapIdx fun i kind => (kindOf i).getD kind
    hidden := p.hidden.mapIdx fun i hidden => hidden && (kindOf i).isNone
    named := p.named.mapIdx fun i named => named || (kindOf i).isSome
    productions := p.productions.map fun production => { production with
      steps := production.steps.map fun s =>
        if (kindOf s.symbol).isSome then { s with shown := none } else s } }

/-- Writes a grammar out. The class of words is the first terminal after the end of the text, then
come the fixed texts and the other classes. -/
def expand (g : Grammar) : Productions :=
  let table := fun n => if g.inlined.contains n then g.rules.lookup n else none
  -- Rules to be written out may use each other, though never in a circle.
  let written := g.inlined.foldl (fun (r : Rule → Rule) _ => fun x => r (x.inline table)) id
  let rules := (g.rules.filter fun (n, _) => !g.inlined.contains n).map fun (n, r) => (n, written r)
  let texts := (rules.flatMap fun (_, r) => r.texts).eraseDups
  let (words, classes) := g.classes.partition (·.name == g.word)
  let terminals : Array Terminal := #[.endOfText] ++ (words.map .ofClass).toArray ++
    (texts.map .text).toArray ++ (classes.map .ofClass).toArray
  let firstText := words.length + 1
  let firstClass := firstText + texts.length
  let kinds := #["end"] ++ (words.map (·.name)).toArray ++ texts.toArray ++
    (classes.map (·.name)).toArray ++ (rules.map (·.1)).toArray
  let isText (i : Nat) : Bool := decide (firstText ≤ i) && decide (i < firstClass)
  let numbers (wanted : Nat → Bool) : Std.HashMap String Nat :=
    (kinds.foldl (fun (m, i) n => (if wanted i then m.insertIfNew n i else m, i + 1)) ({}, 0)).1
  let names := numbers (!isText ·)
  let start : Expansion := { texts := numbers isText, names, base := kinds.size }
  let expandRule (rule : String × Rule) : StateM Expansion (String × Ways) := do
    return (rule.1, ← rule.2.ways {} rule.1)
  let (expanded, state) := (rules.mapM expandRule).run start
  let productionsOf (head : Nat) (ways : Ways) : Array Production :=
    (ways.map fun (s, w) => { head, steps := s.toArray, weight := w }).toArray
  let ofRules := expanded.foldl
    (fun ps (n, ways) => ps ++ productionsOf (names.getD n 0) ways) #[]
  -- A repetition is what it repeats, or two repetitions one after the other.
  let (ofRepetitions, _) := state.repetitions.foldl (fun (ps, i) (_, ways) =>
    (ps ++ productionsOf i (([{ symbol := i }, { symbol := i }], 0) :: ways), i + 1))
    (#[], kinds.size)
  let allKinds := kinds ++ state.repetitions.map (·.1)
  Productions.steady {
    terminals
    repetitions := kinds.size
    kinds := allKinds
    hidden := allKinds.mapIdx fun i n => !isText i && isHidden n
    named := allKinds.mapIdx fun i _ => decide (0 < i) && !isText i
    productions := ofRules ++ ofRepetitions }

end GoToJava.Grammar
