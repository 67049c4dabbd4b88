import GoToJava.Grammar.State

/-!
Merging of states. States with the same core that do the same on every token they share become one
state, provided that no token of the one hides a token of the other. A merged state admits what any
of its members admits, so a wrong token may be found out some reductions later than without merging.
-/

namespace GoToJava.Grammar

/-- States in groups. -/
structure Grouping where
  groups : Array (List Nat)
  /-- The group of each state. -/
  groupOf : Array Nat

namespace Grouping

/-- One group for each core, in the order in which the cores are met. -/
def byCore (states : Array State) : Grouping := Id.run do
  let mut numbers : Std.HashMap (Array Nat) Nat := {}
  let mut groups : Array (List Nat) := #[]
  let mut groupOf : Array Nat := #[]
  for h : n in [0:states.size] do
    let core := states[n].core
    let group := numbers.getD core groups.size
    if group == groups.size then
      numbers := numbers.insert core group
      groups := groups.push []
    groups := groups.modify group (n :: ·)
    groupOf := groupOf.push group
  return { groups := groups.map (·.reverse), groupOf }

/-- Goes through the groups, new ones included. The members that `leave` tells go into a new group
together. -/
def split (leave : Array Nat → List Nat → List Nat) (g : Grouping) : Grouping := Id.run do
  let mut groups := g.groups
  let mut groupOf := g.groupOf
  -- No group is empty, so there are never more groups than states.
  for n in [0:g.groupOf.size] do
    if h : n < groups.size then
      let members := groups[n]
      let gone := leave groupOf members
      if !gone.isEmpty then
        let group := groups.size
        groups := (groups.set n (members.filter (!gone.contains ·))).push gone
        groupOf := gone.foldl (fun m s => m.set! s group) groupOf
    else break
  return { groups, groupOf }

end Grouping

/-- Those that cannot stay with one that is before them and stays. -/
def departures (apart : Nat → Nat → Bool) : List Nat → List Nat
  | [] => []
  | first :: rest =>
    let parts := rest.partition (apart first)
    parts.1 ++ departures apart parts.2
  termination_by members => members.length
  decreasing_by
    simp only [List.partition_eq_filter_filter, List.length_cons]
    exact Nat.lt_succ_of_le (List.length_filter_le _ _)

/-- For each terminal the terminals that hide it. A text of white space hides all others: where it
is admitted, white space is no longer skipped. -/
def hiders (g : Grammar) (base : Productions) : Array TokenSet :=
  let textOf : Terminal → Option String
    | .text s => some s
    | _ => none
  base.terminals.mapIdx fun i terminal =>
    (base.terminals.foldl (fun (set, n) other =>
      let hides := match textOf other with
        | none => false
        | some longer =>
          if longer.all g.isBlank then n != i
          else match textOf terminal with
            | none => false
            | some shorter => ((g.hides.lookup longer).getD []).contains shorter
      (if hides then set.insert n else set, n + 1)) (TokenSet.empty, 0)).1

/-- What of a state decides whether it can be merged with another. -/
structure Profile where
  state : State
  /-- The tokens that have a target. -/
  shifts : List Nat
  /-- The tokens that would hide an admitted one. -/
  dangers : TokenSet
  deriving Inhabited

namespace Profile

def ofState (hiders : Array TokenSet) (s : State) : Profile where
  state := s
  shifts := (List.range hiders.size).filter fun token => s.targets.getD token 0 != 0
  dangers := s.admitted.toList.foldl (fun set token => set.union (hiders.getD token .empty)) .empty

/-- Whether a token of the one is hidden by a token of the other that it does not admit itself. -/
def hides (a b : Profile) : Bool :=
  let alone := a.state.admitted.symmDiff b.state.admitted
  (alone.inter a.state.admitted).meets b.dangers || (alone.inter b.state.admitted).meets a.dangers

/-- Whether two states of one core do different things on a token that both admit. -/
def disagree (groupOf : Array Nat) (a b : Profile) : Bool :=
  let common := a.state.admitted.inter b.state.admitted
  let differ (s t : TokenSet) : Bool := (s.symmDiff t).meets common
  differ a.state.held b.state.held ||
    (a.state.reductions.zip b.state.reductions).any (fun ((_, s), (_, t)) => differ s t) ||
    a.shifts.length != b.shifts.length ||
    a.shifts.any fun token =>
      groupOf.getD (a.state.targets.getD token 0) 0 !=
        groupOf.getD (b.state.targets.getD token 0) 0

/-- Whether some symbol leads the two states to different groups. -/
def part (groupOf : Array Nat) (a b : Profile) : Bool :=
  (a.state.targets.zip b.state.targets).any fun (m, n) =>
    m != n && groupOf.getD m 0 != groupOf.getD n 0

end Profile

/-- Which states are merged: those of one core that neither disagree nor hide a token from one
another, as long as every symbol leads them to states that are merged too. -/
def grouping (hiders : Array TokenSet) (states : Array State) : Grouping := Id.run do
  let profiles := states.map (Profile.ofState hiders)
  let profile (n : Nat) : Profile := profiles.getD n default
  let mut g := Grouping.byCore states |>.split fun groupOf => departures fun m n =>
    (profile m).hides (profile n) || (profile m).disagree groupOf (profile n)
  for _ in [0:states.size] do
    let next := g.split fun groupOf members => match members with
      | [] => []
      | first :: rest => rest.filter fun n => (profile first).part groupOf (profile n)
    if next.groups.size == g.groups.size then break
    g := next
  return g

/-- The state that some states of one core are merged into. -/
def mergeAll (groupOf : Array Nat) : List State → State
  | [] => default
  | first :: rest =>
    let merged := rest.foldl (fun a b => { a with
      reductions := a.reductions.zipWith (fun (i, s) (_, t) => (i, s.union t)) b.reductions
      held := a.held.union b.held
      admitted := a.admitted.union b.admitted }) first
    { merged with
      targets := merged.targets.map fun n => if n == 0 then 0 else groupOf.getD n 0 }

/-- The states of a grammar, merged. -/
def states (g : Grammar) (t : Items) : Array State :=
  let single := Survey.states t
  let grouping := grouping (hiders g t.base) single
  grouping.groups.map fun members =>
    mergeAll grouping.groupOf (members.map fun n => single.getD n default)

end GoToJava.Grammar
