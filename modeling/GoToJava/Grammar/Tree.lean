import GoToJava.Grammar.Item

/-!
What reading a text leaves: trees of productions while two readings may still compete, and nodes
with kinds and fields once one of them has won.
-/

namespace GoToJava.Grammar

/-- A piece of text as it was read. Comments stand among the parts of a node and are none of
them. -/
inductive Tree where
  | leaf (symbol start stop : Nat)
  | comment (start stop : Nat)
  | node (symbol production start stop : Nat) (weight : Int) (children : List Tree)
  deriving Inhabited

namespace Tree

def symbol : Tree → Nat
  | leaf s _ _ => s
  | comment _ _ => 0
  | node s _ _ _ _ _ => s

def start : Tree → Nat
  | leaf _ s _ => s
  | comment s _ => s
  | node _ _ s _ _ _ => s

def stop : Tree → Nat
  | leaf _ _ s => s
  | comment _ s => s
  | node _ _ _ s _ _ => s

def isComment : Tree → Bool
  | comment _ _ => true
  | _ => false

/-- The sum of the weights of the productions used. -/
def weight : Tree → Int
  | node _ _ _ _ w _ => w
  | _ => 0

def children : Tree → List Tree
  | node _ _ _ _ _ cs => cs
  | _ => []

def childCount (t : Tree) : Nat := t.children.length

/-- An order of trees: by symbol, then by the number of children, then by the children. -/
def compare : Tree → Tree → Ordering
  | node s _ _ _ _ cs, other =>
    ordNat s other.symbol |>.then (ordNat cs.length other.childCount) |>.then
      (compareAll cs other.children)
  | leaf s _ _, other => ordNat s other.symbol |>.then (ordNat 0 other.childCount)
  | comment _ _, other => ordNat 0 other.symbol |>.then (ordNat 0 other.childCount)
where
  ordNat (a b : Nat) : Ordering := Ord.compare a b
  compareAll : List Tree → List Tree → Ordering
    | [], _ => .eq
    | _, [] => .eq
    | c :: cs, d :: ds => (compare c d).then (compareAll cs ds)

/-- A node over some children, which end where the text was read to. -/
def ofChildren (symbol production : Nat) (weight : Int) (place : Nat) (children : List Tree) :
    Tree :=
  node symbol production
    ((children.head?.map start).getD place) ((children.getLast?.map stop).getD place)
    (children.foldl (fun w c => w + c.weight) weight) children

/-- Whether the second of two readings of one piece of text beats the first: the heavier reading
wins, and of two equally heavy ones the lesser in the order. -/
def beats (first second : Tree) : Bool :=
  if first.weight ≠ second.weight then first.weight < second.weight
  else compare first second == .gt

end Tree

/-- A node of the text's structure. `named` tells the kinds of rules from bare texts. -/
inductive Node where
  | mk (kind : String) (named : Bool) (text : String) (children : List (Option String × Node))
  deriving Inhabited

namespace Node

def kind : Node → String
  | mk k _ _ _ => k

def named : Node → Bool
  | mk _ n _ _ => n

def text : Node → String
  | mk _ _ t _ => t

/-- The children with the fields they answer to. -/
def parts : Node → List (Option String × Node)
  | mk _ _ _ ps => ps

def children (n : Node) : List Node := n.parts.map (·.2)

def namedChildren (n : Node) : List Node := n.children.filter (·.named)

/-- All children that answer to a field. -/
def fields (n : Node) (name : String) : List Node :=
  n.parts.filterMap fun (f, c) => if f == some name then some c else none

/-- The first child that answers to a field. -/
def field? (n : Node) (name : String) : Option Node := (n.fields name).head?

/-- Whether a bare text is among the children. -/
def hasText (n : Node) (text : String) : Bool :=
  n.children.any fun c => !c.named && c.kind == text

/-- How deep nodes are nested. -/
def height : Node → Nat
  | mk _ _ _ ps => 1 + heights ps
where
  heights : List (Option String × Node) → Nat
    | [] => 0
    | p :: ps => max (height p.2) (heights ps)

end Node

/-- The nodes a tree leaves: one for a symbol that is shown, else those of its children. `field` and
`shown` are what the parent's production calls it. -/
def Tree.nodes (base : Productions) (source : Array Char) (field shown : Option String) :
    Tree → List (Option String × Node)
  | .comment _ _ => []
  | .leaf symbol start stop =>
    if base.hidden.getD symbol false then [] else
      let text := String.ofList (source.extract start stop).toList
      [(field, .mk (shown.getD (base.kinds.getD symbol ""))
        (shown.isSome || base.named.getD symbol false) text [])]
  | .node symbol production start stop _ children =>
    let steps := (base.productions.getD production default).steps.toList
    if base.hidden.getD symbol false then
      ofChildren base source field steps children
    else
      let text := String.ofList (source.extract start stop).toList
      [(field, .mk (shown.getD (base.kinds.getD symbol "")) true text
        (ofChildren base source none steps children))]
where
  /-- A child that its own production does not label takes the label of a hidden parent. -/
  ofChildren (base : Productions) (source : Array Char) (field : Option String) :
      List Step → List Tree → List (Option String × Node)
    | steps, .comment _ _ :: cs => ofChildren base source field steps cs
    | s :: steps, c :: cs =>
      c.nodes base source (s.field <|> field) s.shown ++ ofChildren base source field steps cs
    | _, _ => []

end GoToJava.Grammar
