import GoToJava.Grammar.Tree

/-!
Stacks that share their parts. Where the text read so far has several readings, each has a stack of
states and trees; stacks that come to the same state at the same place are joined there, and what
lies below keeps apart the ways that led to it.
-/

namespace GoToJava.Grammar

/-- A way down from a joint: the tree on top and the joint below it. -/
structure Link where
  below : Nat
  tree : Tree
  deriving Inhabited

/-- A place in the stacks: the reader is in `state` after the character number `place`. -/
structure Joint where
  state : Nat
  place : Nat
  rest : List Char
  /-- The weight of the heaviest way down. -/
  weight : Int
  links : Array Link
  deriving Inhabited

/-- Where a stack stands: it may move on, it has no move on what comes next, or it is done, since
the whole text is read or since it met another stack. -/
inductive Status where
  | live
  | stuck
  | ended
  deriving DecidableEq, Inhabited

/-- The top of one stack. -/
structure Head where
  joint : Nat
  status : Status := .live
  deriving Inhabited

/-- All stacks, the most promising first. -/
structure Stacks where
  joints : Array Joint
  heads : Array Head
  deriving Inhabited

namespace Stacks

/-- At most this many ways lead down from one joint. -/
def maxLinks : Nat := 8

/-- At most this many ways down are followed at once. -/
def maxWays : Nat := 64

def joint (s : Stacks) (j : Nat) : Joint := s.joints.getD j default

def head (s : Stacks) (v : Nat) : Head := s.heads.getD v { joint := 0, status := .ended }

def top (s : Stacks) (v : Nat) : Joint := s.joint (s.head v).joint

def isLive (s : Stacks) (v : Nat) : Bool := (s.head v).status == .live

def stop (s : Stacks) (v : Nat) (status : Status) : Stacks :=
  { s with heads := s.heads.modify v ({ · with status }) }

def erase (s : Stacks) (v : Nat) : Stacks :=
  { s with heads := s.heads.eraseIdxIfInBounds v }

/-- A new stack, the last, that starts from a joint. -/
def fork (s : Stacks) (joint : Nat) : Stacks := { s with heads := s.heads.push { joint } }

/-- Puts a tree on a stack. -/
def push (s : Stacks) (v : Nat) (tree : Tree) (state : Nat) (rest : List Char) : Stacks :=
  let below := (s.head v).joint
  let weight := (s.joint below).weight + tree.weight
  match s with
  | ⟨joints, heads⟩ =>
    let joints := joints.push { state, place := tree.stop, rest, weight, links := #[⟨below, tree⟩] }
    ⟨joints, heads.modify v ({ · with joint := joints.size - 1 })⟩

/-- Two trees that need not be told apart by what they cover. -/
def alike (a b : Tree) : Bool :=
  a.symbol == b.symbol && a.isComment == b.isComment && a.start == b.start && a.stop == b.stop &&
    a.childCount == b.childCount

/-- Adds a way down from a joint. A way that runs alike to the same joint is a rival reading of one
piece of text, and the heavier stays; one that runs alike to a joint of the same state and place
joins the two below. `depth` bounds how far down joints are joined. -/
def addLink (depth : Nat) (s : Stacks) (j : Nat) (link : Link) : Stacks :=
  match depth with
  | 0 => s
  | depth + 1 =>
    if link.below == j then s else
      let links := (s.joint j).links
      let below := s.joint link.below
      let weight := below.weight + link.tree.weight
      let raise (s : Stacks) : Stacks :=
        { s with joints := s.joints.modify j fun x => { x with weight := max x.weight weight } }
      let joined := links.findIdx? fun l => alike l.tree link.tree &&
        (l.below == link.below ||
          (s.joint l.below).state == below.state && (s.joint l.below).place == below.place)
      match joined with
      | some k =>
        let old := links.getD k default
        if old.below != link.below then
          raise (below.links.foldl (fun s l => addLink depth s old.below l) s)
        else if old.tree.weight < link.tree.weight then
          { s with joints := s.joints.modify j fun x =>
              { x with weight, links := x.links.set! k link } }
        else s
      | none =>
        if maxLinks ≤ links.size then s
        else
          raise { s with joints := s.joints.modify j fun x =>
            { x with links := x.links.push link } }

/-- Whether two stacks are at the same state and place. -/
def meet (s : Stacks) (v w : Nat) : Bool :=
  s.isLive v && s.isLive w && (s.top v).state == (s.top w).state &&
    (s.top v).place == (s.top w).place

/-- Joins the stack `w` to the stack `v`. -/
def merge (s : Stacks) (v w : Nat) : Stacks :=
  let joint := (s.head v).joint
  ((s.top w).links.foldl (fun s link => addLink s.joints.size s joint link) s).erase w

/-- A way down under way: where it has come to, and the trees it has passed, the lowest first.
Comments among them do not count. -/
structure Descent where
  joint : Nat
  trees : List Tree := []
  count : Nat := 0

def Descent.along (d : Descent) (l : Link) : Descent where
  joint := l.below
  trees := l.tree :: d.trees
  count := if l.tree.isComment then d.count else d.count + 1

/-- Takes one step on each way that has not passed `count` trees yet: on by the oldest link, while
ways by the other links wait behind all the others. Those that have come far enough are done. -/
def descend (s : Stacks) (count : Nat) (kept forks : Array Descent)
    (done : Array (Nat × List Tree)) :
    List Descent → Array Descent × Array (Nat × List Tree)
  | [] => (kept ++ forks, done)
  | d :: waiting =>
    if d.count == count then descend s count kept forks (done.push (d.joint, d.trees)) waiting
    else
      let links := (s.joint d.joint).links
      match links[0]? with
      | none => descend s count kept forks done waiting
      | some oldest =>
        let room := maxWays - (kept.size + 1 + waiting.length + forks.size)
        let others := (links.extract 1 (room + 1)).map d.along
        descend s count (kept.push (d.along oldest)) (forks ++ others) done waiting

/-- All ways to take `count` trees from a joint, each with the joint it ends at. No way down is
longer than there are joints. -/
def ways (s : Stacks) (count j : Nat) : Array (Nat × List Tree) :=
  go (s.joints.size + 1) #[] [{ joint := j }]
where
  go : Nat → Array (Nat × List Tree) → List Descent → Array (Nat × List Tree)
    | 0, done, _ => done
    | _, done, [] => done
    | steps + 1, done, descents =>
      let (descents, done) := descend s count #[] #[] done descents
      go steps done descents.toList

/-- The ways grouped by where they end, in the order in which the ends were first met. -/
def grouped (ways : List (Nat × List Tree)) : List (Nat × List (List Tree)) :=
  let ends := (ways.map (·.1)).eraseDups
  ends.map fun e => (e, ways.filterMap fun (j, trees) => if j == e then some trees else none)

end Stacks

end GoToJava.Grammar
