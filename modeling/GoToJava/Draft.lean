/-!
Texts with holes. A hole stands at a place of a draft and is a draft itself, which may grow, and
have holes of its own, until everything is joined into one text. A hole may carry a task that will
write its text.
-/

namespace GoToJava

/-- A text under way. -/
structure Draft where
  /-- What was written here, without what the holes hold. -/
  text : String := ""
  /-- The holes of this draft in the order they were left. -/
  holes : Array Nat := #[]
  joined : Bool := false
  deriving Inhabited

/-- A place left open in the draft `parent` after `offset` bytes, to be filled by the draft
`child`. -/
structure Hole (τ : Type) where
  parent : Nat
  offset : Nat
  child : Nat
  task : Option τ
  resolved : Bool := false
  deriving Inhabited

/-- All drafts and holes, by number. -/
structure Drafts (τ : Type) where
  drafts : Array Draft := #[]
  holes : Array (Hole τ) := #[]
  deriving Inhabited

/-- Why an operation on drafts is refused. -/
inductive DraftError where
  | writeToJoined
  | attachToResolved
  | alreadyJoined
  deriving DecidableEq, Repr, Inhabited

def DraftError.message : DraftError → String
  | writeToJoined => "write to a joined buffer"
  | attachToResolved => "attach to a resolved reservation"
  | alreadyJoined => "buffer has already been joined"

/-- The text cut after so many bytes. A cut inside a character falls before it. -/
def splitBytes : Nat → List Char → List Char × List Char
  | _, [] => ([], [])
  | n, c :: cs =>
    if c.utf8Size ≤ n then
      let (before, after) := splitBytes (n - c.utf8Size) cs
      (c :: before, after)
    else ([], c :: cs)

/-- The text with another one put in after so many bytes. -/
def insertAt (text : String) (offset : Nat) (added : String) : String :=
  let (before, after) := splitBytes offset text.toList
  String.ofList before ++ added ++ String.ofList after

namespace Drafts

variable {τ : Type}

def draft (d : Drafts τ) (id : Nat) : Draft := d.drafts.getD id {}

def hole (d : Drafts τ) (id : Nat) : Hole τ :=
  d.holes.getD id { parent := 0, offset := 0, child := 0, task := none }

def text (d : Drafts τ) (id : Nat) : String := (d.draft id).text

def isJoined (d : Drafts τ) (id : Nat) : Bool := (d.draft id).joined

/-- The number of the next draft. -/
def next (d : Drafts τ) : Nat := d.drafts.size

/-- Starts an empty draft, which gets the next number. -/
def new (d : Drafts τ) : Drafts τ := { d with drafts := d.drafts.push {} }

/-- Writes at the end of a draft. -/
def write (d : Drafts τ) (id : Nat) (text : String) : Except DraftError (Drafts τ) :=
  if d.isJoined id then .error .writeToJoined
  else .ok { d with drafts := d.drafts.modify id fun x => { x with text := x.text ++ text } }

/-- Leaves a hole at the end of a draft. The hole and its draft get the next numbers. -/
def reserve (d : Drafts τ) (parent : Nat) (task : Option τ) : Drafts τ where
  drafts := (d.drafts.push {}).modify parent fun x => { x with holes := x.holes.push d.holes.size }
  holes := d.holes.push
    { parent, offset := (d.text parent).utf8ByteSize, child := d.drafts.size, task }

/-- Gives a hole its task. -/
def attach (d : Drafts τ) (id : Nat) (task : τ) : Except DraftError (Drafts τ) :=
  if (d.hole id).resolved then .error .attachToResolved
  else .ok { d with holes := d.holes.modify id fun h => { h with task := some task } }

/-- Takes the task of a hole, which is resolved from then on: no task is handed out twice. -/
def resolve (d : Drafts τ) (id : Nat) : Option (Option τ) × Drafts τ :=
  let h := d.hole id
  if h.resolved then (none, d)
  else
    (some h.task,
      { d with holes := d.holes.modify id fun h => { h with task := none, resolved := true } })

/-- Puts the texts of a draft's holes in, the last hole first, so that no text moves a place that is
still to be filled. The holes of a draft are younger than the draft, so `depth` may be the number of
drafts. -/
def close (depth : Nat) (d : Drafts τ) (id : Nat) : Drafts τ :=
  match depth with
  | 0 => d
  | depth + 1 =>
    let (d, text) := (d.draft id).holes.foldr (fun h (d, text) =>
        let hole := d.hole h
        let d := close depth d hole.child
        let filled := insertAt text hole.offset (d.text hole.child)
        ({ d with drafts := d.drafts.modify hole.child fun x => { x with text := "" } }, filled))
      (d, d.text id)
    { d with drafts := d.drafts.modify id fun _ => { text, holes := #[], joined := true } }

/-- Joins a draft and everything below it into one text. -/
def join (d : Drafts τ) (id : Nat) : Except DraftError (String × Drafts τ) :=
  if d.isJoined id then .error .alreadyJoined
  else
    let d := d.close d.drafts.size id
    .ok (d.text id, d)

end Drafts

end GoToJava
