import GoToJava.Grammar.Merging
import GoToJava.Grammar.Scan
import GoToJava.Grammar.Stack

/-!
Reading a text by a grammar. All readings are followed side by side, one stack each, and each takes
its tokens by what its own state admits. A stack without a move is dropped. Where two readings of
one piece of text survive, the heavier one wins.
-/

namespace GoToJava.Grammar

/-- A grammar made ready for reading. -/
structure Tables where
  items : Items
  states : Array State
  lexicon : Lexicon
  deriving Inhabited

def tables (g : Grammar) : Tables :=
  let items := g.items
  { items, states := g.states items, lexicon := g.lexicon items.base }

def Tables.state (t : Tables) (n : Nat) : State := t.states.getD n default

/-- A reading under way. -/
structure Reading where
  graph : Stacks := ⟨#[], #[]⟩
  /-- The best reading of the whole text so far. -/
  whole : Option Tree := none
  deriving Inhabited

namespace Reading

/-- How many stacks are kept between two rounds, and how many more are kept within one. -/
def maxStacks : Nat := 6
def maxExtra : Nat := 4

abbrev M := StateM Reading

/-- What can be told from the stacks. -/
def look {α : Type} (f : Stacks → α) : M α := fun r => (f r.graph, r)

/-- Changes the stacks. -/
def onGraph (f : Stacks → Stacks) : M Unit := modify fun
  | ⟨graph, whole⟩ => ⟨f graph, whole⟩

/-- The trees without the comments at their end, and those comments. -/
def trimmed (trees : List Tree) : List Tree × List Tree :=
  let back := trees.reverse
  ((back.dropWhile (·.isComment)).reverse, (back.takeWhile (·.isComment)).reverse)

/-- Reduces the stack `v` by a production. Each end of a way down becomes a stack of its own, unless
it meets an older one. Comments after the last part go on top of the new node. Answers the number of
the first new stack, if any is left. -/
def reduce (t : Tables) (v production : Nat) : M (Option Nat) := do
  let p := t.items.base.productions.getD production default
  let groups ← look fun s => Stacks.grouped (s.ways p.steps.size (s.head v).joint).toList
  let rest ← look fun s => (s.top v).rest
  let old ← look (·.heads.size)
  let ended ← look fun s => (s.heads.filter (·.status == .ended)).size
  for (joint, readings) in groups do
    let w ← look (·.heads.size)
    if maxStacks + maxExtra + ended < w then continue
    let below ← look (·.joint joint)
    let make (trees : List Tree) : Tree × List Tree :=
      let (parts, comments) := trimmed trees
      (Tree.ofChildren p.head production p.weight below.place parts, comments)
    match readings.map make with
    | [] => continue
    | first :: others =>
      let (tree, comments) := others.foldl (fun best other =>
        if best.1.beats other.1 then other else best) first
      let state := (t.state below.state).targets.getD p.head 0
      onGraph fun s => (tree :: comments).foldl (fun s x => s.push w x state rest) (s.fork joint)
      for j in [0:w] do
        if j != v && (← look (·.meet j w)) then
          onGraph (·.merge j w)
          break
  return if old < (← look (·.heads.size)) then some old else none

/-- Ends a reading of the whole text at the lexeme that stands for its end. -/
def accept (v : Nat) (found : Found) : M Unit := do
  for (_, trees) in ← look fun s => s.ways 1 (s.head v).joint do
    for tree in trees do
      if !tree.isComment then
        modify fun r => { r with whole := match r.whole with
          | none => some tree
          | some best => some (if best.beats tree then tree else best) }
  onGraph fun s => (s.push v (.leaf 0 found.start found.stop) 0 found.rest).stop v .ended

/-- Follows the moves of a stack on one token, until the token is taken or no move is left. A
keyword that is not reserved counts as a plain word where it has no move. -/
def follow (t : Tables) (v : Nat) (found : Found) (token : Nat) (soft : Bool) : Nat → M Unit
  | 0 => onGraph (·.stop v .stuck)
  | steps + 1 => do
    let state ← look fun s => t.state (s.top v).state
    let moves := state.moves t.items token
    let mut reduced : Option Nat := none
    for move in moves do
      match move with
      | .reduce p =>
        let new ← reduce t v p
        reduced := new <|> reduced
      | .shift state =>
        onGraph (·.push v (.leaf token found.start found.stop) state found.rest)
        return
      | .accept =>
        accept v found
        return
    match reduced with
    | some w =>
      onGraph fun s => { s with heads := s.heads.set! v (s.head w) }
      onGraph (·.erase w)
      follow t v found token soft steps
    | none =>
      if !moves.isEmpty then onGraph (·.stop v .ended)
      else
        match t.lexicon.word.filter fun (_, w) => soft && state.admitted.contains w with
        | some (_, w) => follow t v found w false steps
        | none => onGraph (·.stop v .stuck)

/-- Takes one lexeme on the stack `v`. -/
def advance (t : Tables) (v : Nat) : M Unit := do
  let joint ← look (·.top v)
  let steps ← look fun s => 32 * (s.joints.size + 32)
  match t.lexicon.scan (t.state joint.state).admitted true joint.place joint.rest with
  | none => onGraph (·.stop v .stuck)
  | some found =>
    match found.lexeme with
    | .comment => onGraph (·.push v (.comment found.start found.stop) joint.state found.rest)
    | .token token soft => follow t v found token soft steps

/-- Joins stacks that have met, puts heavier ones before lighter ones, and keeps the first few.
Stacks that are stuck are dropped. -/
def sift : M Unit := do
  onGraph fun s => { s with heads := s.heads.filter (·.status == .live) }
  let mut i := 0
  for _ in [0:← look (·.heads.size)] do
    let weight ← look fun s => (s.top i).weight
    let mut merged := false
    for j in [0:i] do
      let lighter ← look fun s => decide ((s.top j).weight < weight)
      if ← look (·.meet j i) then
        onGraph (·.merge j i)
        merged := true
        break
      else if lighter then
        onGraph fun s => { s with heads := s.heads.swapIfInBounds i j }
    if !merged then i := i + 1
  onGraph fun s => { s with heads := s.heads.take maxStacks }

/-- Takes the next lexeme on every stack. Stacks that lag behind catch up with the first. Answers
how far the text is read. -/
def round (t : Tables) (length reached : Nat) : M Nat := do
  let mut reached := reached
  -- New stacks are made while the older ones move on.
  for v in [0:(maxStacks + maxExtra) * 4] do
    if (← look (·.heads.size)) ≤ v then break
    for _ in [0:length + 8] do
      if ← look fun s => !s.isLive v then break
      advance t v
      let place ← look fun s => (s.top v).place
      if reached < place || (0 < v && place == reached) then
        reached := place
        break
  sift
  return reached

/-- Reads a whole text. Each round takes a character at least, apart from a few at the end. -/
def run (t : Tables) (source : List Char) : M Unit := do
  onGraph fun _ => ⟨#[{ state := 0, place := 0, rest := source, weight := 0, links := #[] }],
    #[{ joint := 0 }]⟩
  let mut reached := 0
  for _ in [0:source.length + 8] do
    if ← look (·.heads.isEmpty) then break
    reached ← round t source.length reached

end Reading

/-- The structure of a text, if the grammar admits it. -/
def Tables.read? (t : Tables) (source : String) : Option Node :=
  let chars := source.toList
  let (_, r) := (Reading.run t chars).run {}
  r.whole.bind fun tree =>
    ((tree.nodes t.items.base chars.toArray none none).head?).map (·.2)

end GoToJava.Grammar
