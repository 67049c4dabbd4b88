import GoToJava.Grammar.Production
import GoToJava.Grammar.TokenSet

/-!
Items: productions with a mark between two of their steps. Everything about items that does not
depend on the text being read is worked out here once for a grammar.
-/

namespace GoToJava.Grammar

/-- A production with a mark before the step `dot`. -/
structure Item where
  production : Nat
  dot : Nat
  head : Nat
  /-- The symbol after the mark. -/
  next : Option Nat
  /-- The item with the mark one step on. -/
  advanced : Nat
  /-- The binding level and the side of the step before the mark. -/
  level : Int
  side : Option Side
  weight : Int
  deriving Inhabited

/-- Where the closure of a symbol starts: a production from its first step, the tokens that may
follow it whatever follows the symbol, and whether what follows the symbol may follow it too. -/
structure Opening where
  item : Nat
  follow : TokenSet
  passes : Bool
  deriving Inhabited

/-- The items of a grammar. -/
structure Items where
  base : Productions
  all : Array Item
  /-- The tokens a symbol may start with. -/
  first : Array TokenSet
  openings : Array (Array Opening)
  /-- The item of the whole text. -/
  start : Nat
  deriving Inhabited

/-- Two items that agree in this are the same for the rest of the reading: what was read already
counts by its labels only, until a hidden part with fields of its own is among it. -/
structure ItemKey where
  head : Nat
  dot : Nat
  weight : Int
  level : Int
  side : Option Side
  read : List (Option String × Option String)
  parts : List Nat
  ahead : List Step
  deriving DecidableEq, Hashable

def itemKey (carries : Nat → Bool) (p : Production) (dot : Nat) : ItemKey :=
  let before := if dot = 0 then none else p.steps[dot - 1]?
  let read := (p.steps.extract 0 dot).toList
  { head := p.head
    dot
    weight := p.weight
    level := (before.map (·.level)).getD 0
    side := before.bind (·.side)
    read := read.map fun s => (s.field, s.shown)
    parts := if read.any (carries ·.symbol) then read.map (·.symbol) else []
    ahead := (p.steps.extract dot p.steps.size).toList }

/-- Which hidden symbols leave nodes that answer to a field. -/
def carriers (base : Productions) : Array Bool := Id.run do
  let mut found : Array Bool := base.kinds.map fun _ => false
  -- A pass that changes nothing is the last one; each pass fixes one more symbol at least.
  for _ in [0:base.kinds.size] do
    let before := found
    for p in base.productions do
      if base.hidden.getD p.head false &&
          p.steps.any fun s => s.field.isSome || before.getD s.symbol false then
        found := found.set! p.head true
    if found == before then break
  return found

/-- Numbers the items of all productions, and gives the number of each production's first item.
Items with one key share one number: the one met first. -/
def numberItems (base : Productions) : Array Item × Array Nat := Id.run do
  let ps := base.productions
  let carriers := carriers base
  let starts :=
    ps.foldl (fun (out, n) p => (out.push n, n + p.steps.size + 1)) ((#[] : Array Nat), 0)
  let mut seen : Std.HashMap ItemKey Nat := {}
  let mut same : Array Nat := #[]
  for h : i in [0:ps.size] do
    let p := ps[i]
    for dot in [0:p.steps.size + 1] do
      let key := itemKey (carriers.getD · false) p dot
      let own := starts.1.getD i 0 + dot
      same := same.push (seen.getD key own)
      seen := seen.insertIfNew key own
  let mut items : Array Item := #[]
  for h : i in [0:ps.size] do
    let p := ps[i]
    for dot in [0:p.steps.size + 1] do
      let before := if dot = 0 then none else p.steps[dot - 1]?
      items := items.push {
        production := i
        dot
        head := p.head
        next := p.steps[dot]?.map (·.symbol)
        advanced := same.getD (starts.1.getD i 0 + dot + 1) 0
        level := (before.map (·.level)).getD 0
        side := before.bind (·.side)
        weight := p.weight }
  return (items, starts.1.map fun s => same.getD s s)

/-- The tokens each symbol may start with. No rule but the first may be empty, so the first step
decides. -/
def firstTokens (base : Productions) : Array TokenSet := Id.run do
  let mut sets : Array TokenSet :=
    base.kinds.mapIdx fun i _ => if i < base.terminals.size then .single i else .empty
  for _ in [0:base.kinds.size] do
    let before := sets
    for p in base.productions do
      if let some s := p.steps[0]? then
        sets := sets.modify p.head (·.union (before.getD s.symbol .empty))
    if sets == before then break
  return sets

/-- The openings of one symbol. -/
def openingsOf (items : Array Item) (starts : Array Nat) (byHead : Array (Array Nat))
    (base : Productions) (first : Array TokenSet) (symbol : Nat) : Array Opening := Id.run do
  let mut found : Std.HashMap Nat (TokenSet × Bool) := {}
  let mut order : Array Nat := #[]
  let mut work : List Nat := []
  for p in byHead.getD symbol #[] do
    let item := starts.getD p 0
    if !found.contains item then
      found := found.insert item (.empty, true)
      order := order.push item
      work := item :: work
  -- Every round adds a token or a passing mark to one opening.
  for _ in [0:base.productions.size * 128] do
    match work with
    | [] => break
    | item :: rest =>
      work := rest
      let (follow, passes) := found.getD item (.empty, false)
      let production := base.productions.getD (items.getD item default).production default
      let some s := production.steps[0]? | continue
      let (follow, passes) := match production.steps[1]? with
        | some s' => (first.getD s'.symbol .empty, false)
        | none => (follow, passes)
      for p in byHead.getD s.symbol #[] do
        let inner := starts.getD p 0
        match found[inner]? with
        | none =>
          found := found.insert inner (follow, passes)
          order := order.push inner
          work := inner :: work
        | some (f, q) =>
          let f' := f.union follow
          let q' := q || passes
          if f' != f || q' != q then
            found := found.insert inner (f', q')
            work := inner :: work
  return order.map fun item =>
    let (follow, passes) := found.getD item (.empty, false)
    { item, follow, passes }

/-- The items of a grammar. One more production, the last, holds the whole text. -/
def items (g : Grammar) : Items :=
  let written := g.expand
  let root := written.kinds.size
  let whole := (g.rules.head?.bind fun (n, _) => written.kinds.findIdx? (· == n)).getD 0
  let top : Production := { head := root, steps := #[{ symbol := whole }] }
  let base : Productions := { written with
    kinds := written.kinds.push "_whole"
    hidden := written.hidden.push true
    named := written.named.push false
    productions := written.productions.push top }
  let (all, starts) := numberItems base
  let byHead := base.productions.foldl (fun (out, i) p => (out.modify p.head (·.push i), i + 1))
    (base.kinds.map fun _ => (#[] : Array Nat), 0)
  let first := firstTokens base
  { base
    all
    first
    openings := base.kinds.mapIdx fun i _ => openingsOf all starts byHead.1 base first i
    start := starts.getD (base.productions.size - 1) 0 }

namespace Items

variable (t : Items)

def item (i : Nat) : Item := t.all.getD i default

def isTerminal (symbol : Nat) : Bool := symbol < t.base.terminals.size

/-- The symbol of the whole text. -/
def root : Nat := t.base.kinds.size - 1

def isRepetition (symbol : Nat) : Bool := t.base.repetitions ≤ symbol && symbol < t.root

end Items

end GoToJava.Grammar
