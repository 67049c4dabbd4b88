import GoToJava.Grammar.Item

/-!
The states of a reader. A state is the set of items that fit what was read so far, each with the
tokens that may follow it; the two together decide which tokens are admitted next and what each of
them leads to. Where a token asks for more than one thing, levels and sides settle what is done.
-/

namespace GoToJava.Grammar

/-- Items, each with the tokens that may follow its production. -/
abbrev ItemSet := Array (Nat × TokenSet)

/-- Adds an item to a set, or more tokens to what may follow it. -/
def ItemSet.add (s : ItemSet) (i : Nat) (follow : TokenSet) : ItemSet :=
  match s.findIdx? (·.1 == i) with
  | some k => s.modify k fun (_, f) => (i, f.union follow)
  | none => s.push (i, follow)

/-- A state. -/
structure State where
  /-- The items that were begun before, by number. -/
  core : Array Nat
  /-- The items whose mark is at the end, in the order in which they are tried, each with the tokens
  on which it is reduced. -/
  reductions : ItemSet
  /-- The state after each symbol; 0 where there is none, since nothing leads back to the first. -/
  targets : Array Nat
  /-- Tokens that have a target and yet are not taken before a reduction. -/
  held : TokenSet
  /-- The tokens admitted next. -/
  admitted : TokenSet
  deriving Inhabited

/-- What to do on a token. -/
inductive Move where
  /-- Take the token and go to a state. -/
  | shift (state : Nat)
  /-- Replace the last nodes by one node of a production. -/
  | reduce (production : Nat)
  /-- The whole text is read. -/
  | accept
  deriving Inhabited

/-- What to do in a state on a token: reductions first, then the shift. -/
def State.moves (t : Items) (s : State) (token : Nat) : List Move :=
  let reductions := s.reductions.toList.filterMap fun (i, tokens) =>
    if tokens.contains token then
      let item := t.item i
      some (if item.head == t.root then Move.accept else .reduce item.production)
    else none
  let target := s.targets.getD token 0
  if target == 0 || s.held.contains token then reductions else reductions ++ [.shift target]

namespace Items

variable (t : Items)

/-- Finished items are tried shorter first, then in the order of the rules. -/
def triedBefore (a b : Nat × TokenSet) : Bool :=
  let i := t.item a.1
  let j := t.item b.1
  if i.dot ≠ j.dot then i.dot < j.dot
  else if i.head ≠ j.head then i.head < j.head
  else if i.weight ≠ j.weight then i.weight < j.weight
  else a.1 < b.1

/-- All productions that may start at the mark of an item belong to its state. -/
def close (kernel : ItemSet) : ItemSet := Id.run do
  let mut follows : Array TokenSet := Array.replicate t.all.size .empty
  let mut order : Array Nat := #[]
  for (i, follow) in kernel do
    let some symbol := (t.item i).next | continue
    if t.isTerminal symbol then continue
    let after := match (t.item (t.item i).advanced).next with
      | some s => t.first.getD s .empty
      | none => follow
    for o in t.openings.getD symbol #[] do
      let old := follows.getD o.item .empty
      if old.isEmpty then order := order.push o.item
      follows := follows.set! o.item
        (old.union (if o.passes then o.follow.union after else o.follow))
  return kernel ++ order.map fun i => (i, follows.getD i .empty)

/-- The items after each symbol, in the order of their numbers. -/
def afterEach (entries : ItemSet) : Array ItemSet := Id.run do
  let mut out : Array ItemSet := t.base.kinds.map fun _ => #[]
  for (i, follow) in entries do
    let item := t.item i
    if let some symbol := item.next then
      out := out.modify symbol (ItemSet.add · item.advanced follow)
  return out.map fun s => if s.size < 2 then s else s.insertionSort (·.1 < ·.1)

/-- What is done on a token that asks for several things. -/
structure Settlement where
  /-- The numbers of the finished items to reduce by. -/
  reduce : List Nat
  shift : Bool
  /-- The token is taken after a reduction only. -/
  held : Bool := false

/-- Whether to keep reducing and whether to keep shifting where both are possible: the higher level
stays, at equal levels the side decides, and where nothing decides both stay. -/
def weighUp (reduce : List Item) (shift : List Int) : Bool × Bool :=
  let level := (reduce.head?.map (·.level)).getD 0
  let more := shift.any (level < ·)
  let less := shift.any (· < level)
  if more && !less then (false, true)
  else if less && !more then (true, false)
  else if more then (true, true)
  else if reduce.all (·.side == some .left) then (true, false)
  else if reduce.all (·.side == some .right) then (false, true)
  else (true, true)

/-- Settles what is done on a token. Of two finished items that disagree in level the higher one
stays. Within one repetition the parts read so far are put together before another is begun. -/
def settle (kernel finished : ItemSet) (token : Nat) (shifts : Bool) : Settlement :=
  let asking := (finished.toList.filter (·.2.contains token)).map (·.1)
  let highest := (asking.map fun i => (t.item i).level).max?
  let chosen := asking.filter fun i => some (t.item i).level == highest
  if !shifts then { reduce := chosen, shift := false }
  else
    let begun := kernel.toList.filterMap fun (i, _) => do
      let item := t.item i
      let symbol ← item.next
      if item.dot > 0 && (t.first.getD symbol .empty).contains token then some item else none
    let heads := (asking.map fun i => (t.item i).head) ++ begun.map (·.head)
    let repeats := match heads.head? with
      | some head => t.isRepetition head && heads.all (· == head)
      | none => false
    if repeats then { reduce := chosen, shift := true, held := true }
    else
      let (reduce, shift) := weighUp (chosen.map t.item) (begun.map (·.level))
      { reduce := if reduce then chosen else [], shift }

/-- The state of some items, of which the items after each symbol, `after`, are in the states of the
numbers `targets`. -/
def state (kernel entries : ItemSet) (after : Array ItemSet) (targets : Array Nat) : State :=
    Id.run do
  let finished := (entries.filter fun (i, _) => (t.item i).next.isNone).insertionSort
    (t.triedBefore · ·)
  let mut shifts : TokenSet := .empty
  for symbol in [0:t.base.terminals.size] do
    if !(after.getD symbol #[]).isEmpty then shifts := shifts.insert symbol
  -- Only tokens that two finished items, or a finished item and a shift, share are to be settled.
  let (contested, reduced) := finished.foldl (fun (contested, seen) (_, follow) =>
    (contested.union (follow.inter (seen.union shifts)), seen.union follow))
    (TokenSet.empty, TokenSet.empty)
  let mut reductions := finished
  let mut targets := targets
  let mut held : TokenSet := .empty
  for token in contested.toList do
    let s := t.settle kernel finished token (shifts.contains token)
    reductions := reductions.map fun (i, follow) =>
      (i, if s.reduce.contains i then follow else follow.erase token)
    if !s.shift then targets := targets.set! token 0
    if s.held then held := held.insert token
  return {
    core := kernel.map (·.1)
    reductions
    targets
    held
    admitted := shifts.union reduced }

end Items

/-- States found so far: the items of each, and their numbers. -/
structure Survey where
  kernels : Array ItemSet
  numbers : Std.HashMap ItemSet Nat

namespace Survey

/-- The number of the state of these items; 0 if there are none. -/
def number (kernel : ItemSet) : StateM Survey Nat := fun s =>
  if kernel.isEmpty then (0, s)
  else
    match s.numbers[kernel]? with
    | some n => (n, s)
    | none =>
      let n := s.kernels.size
      (n, { kernels := s.kernels.push kernel, numbers := s.numbers.insert kernel n })

/-- At most this many states are built. -/
def limit : Nat := 100000

/-- All states, the first one for the start of the text. The others have their numbers in the order
in which they are found, state by state and symbol by symbol. -/
def states (t : Items) : Array State := Id.run do
  let start : ItemSet := #[(t.start, .single 0)]
  let mut survey : Survey := { kernels := #[start], numbers := .insert {} start 0 }
  let mut states : Array State := #[]
  for n in [0:limit] do
    if h : n < survey.kernels.size then
      let kernel := survey.kernels[n]
      let entries := t.close kernel
      let after := t.afterEach entries
      let (targets, found) := (after.mapM number).run survey
      survey := found
      states := states.push (t.state kernel entries after targets)
    else break
  return states

end Survey

end GoToJava.Grammar
