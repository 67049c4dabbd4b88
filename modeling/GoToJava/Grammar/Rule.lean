/-!
Grammars as data. A rule says which sequences of parts a kind of node may have. Beside the parts it
carries what settles a choice between two readings: a binding level with a side, which is settled
once and for all, and a weight, which is summed over a whole reading.
-/

namespace GoToJava.Grammar

/-- Which way equal binding levels group. -/
inductive Side where
  | left
  | right
  deriving DecidableEq, Hashable, Inhabited

/-- The right-hand side of a rule. -/
inductive Rule where
  /-- Exactly this text. -/
  | text (s : String)
  /-- Another rule, or a class of tokens, by its name. -/
  | ref (name : String)
  | seq (parts : List Rule)
  | alt (choices : List Rule)
  /-- Any number of times, also never. -/
  | star (r : Rule)
  /-- The nodes that `r` leaves answer to this name in their parent. -/
  | field (name : String) (r : Rule)
  /-- The node that `r` leaves shows itself as a node of this kind. -/
  | shown (kind : String) (r : Rule)
  | prec (level : Int) (side : Option Side) (r : Rule)
  | weigh (weight : Int) (r : Rule)
  deriving Inhabited

namespace Rule

/-- The part may be left out. -/
def opt (r : Rule) : Rule := alt [r, seq []]

/-- One or more, divided by `separator`. -/
def sepBy (separator r : Rule) : Rule := seq [r, star (seq [separator, r])]

end Rule

/-- A class of tokens that is not one fixed text. -/
structure TokenClass where
  name : String
  /-- The length of the longest token of the class at the head of the text. -/
  scan : List Char → Option Nat
  /-- Nothing may stand between such a token and the one before it. -/
  immediate : Bool := false
  /-- Such a token is taken even where another one would be longer. -/
  greedy : Bool := false

/-- A rule whose name starts with an underscore leaves no node of its own. -/
def isHidden (name : String) : Bool := name.startsWith "_"

/-- The end of the text, read as a token that is not there: it counts as `token` where both `token`
and `beside` are admitted and `refused` is not. -/
structure EndRule where
  token : String
  beside : String
  refused : String

end GoToJava.Grammar

namespace GoToJava

open Grammar

/-- A grammar. The first rule is the one a whole text is read by. -/
structure Grammar where
  rules : List (String × Rule)
  /-- Rules that are written out where they are used. -/
  inlined : List String
  classes : List TokenClass
  /-- The class of words. A fixed text that is a word is a keyword: it is read as one where the
  grammar admits it, and as a plain word elsewhere. -/
  word : String
  /-- Keywords that are never plain words. -/
  reserved : List String
  /-- White space, skipped between tokens. -/
  isBlank : Char → Bool
  /-- The length of the comment at the head of the text. -/
  comment : List Char → Option Nat
  /-- Texts with the shorter texts that they hide: where both are admitted, what starts with the
  shorter one may be taken for the longer one. -/
  hides : List (String × List String)
  atEnd : Option EndRule

end GoToJava
