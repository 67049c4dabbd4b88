import GoToJava.Proofs.Flow.Shapes

/-!
Runs of statements. What simple statements and conditions do is left open, so that a run tells only
which of them are reached, and in which order. Go and Java differ in their switches.
-/

namespace GoToJava

open Go (Expr CaseClause)

/-! ## Ways to leave a statement -/

/-- How a statement is left. -/
inductive Exit where
  | next
  | break (label : Option String)
  | continue (label : Option String)
  /-- On to the next case. -/
  | fall
  | goto (label : Option String)
  | return
  | panic
  deriving DecidableEq, Repr

namespace Exit

/-- A labelled statement is left by a break to its label. -/
def past (labels : List String) : Exit → Exit
  | .break (some label) => if label ∈ labels then .next else .break (some label)
  | e => e

/-- A loop or a switch is left by a break without a label, too. -/
def leave (labels : List String) : Exit → Exit
  | .break none => .next
  | e => e.past labels

/-- Whether a loop goes on after its body is left. -/
def repeats (labels : List String) : Exit → Bool
  | .next | .continue none => true
  | .continue (some label) => label ∈ labels
  | _ => false

end Exit

/-- What a statement does: how it is left and in which state, unless it takes too many rounds. -/
abbrev Flow (σ : Type) := σ → Option (Exit × σ)

namespace Flow

variable {σ : Type}

def exit (e : Exit) : Flow σ := fun s => some (e, s)

def skip : Flow σ := exit .next

def andThen (f g : Flow σ) : Flow σ := fun s =>
  match f s with
  | some (.next, t) => g t
  | r => r

def mapExit (h : Exit → Exit) (f : Flow σ) : Flow σ := fun s => (f s).map fun r => (h r.1, r.2)

/-- Takes one of two ways, unless the test panics. -/
def choose (test : σ → Option Bool × σ) (f g : Flow σ) : Flow σ := fun s =>
  match test s with
  | (some true, t) => f t
  | (some false, t) => g t
  | (none, t) => some (.panic, t)

/-- Repeats a body as long as the test is true, for some rounds at most. -/
def loop (labels : List String) (test : σ → Option Bool × σ) (body post : Flow σ) : Nat → Flow σ
  | 0 => fun _ => none
  | n + 1 => choose test (fun s =>
      match body s with
      | none => none
      | some (e, t) =>
        if e.repeats labels then andThen post (loop labels test body post n) t
        else some (e.leave labels, t)) skip

/-- Runs the first body, and the next one whenever a body is left in this way. -/
def cascade (on : Exit) : List (Flow σ) → Flow σ
  | [] => skip
  | f :: fs => fun s =>
    match f s with
    | none => none
    | some (e, t) => if e = on then cascade on fs t else some (e, t)

/-- Enters a switch at the case that is chosen, or else at the default case, which has no values. -/
def enter (choice : σ → Option (Option Nat) × σ) (values : List (List Expr))
    (from_ : Nat → Flow σ) :
    Flow σ := fun s =>
  match choice s with
  | (none, t) => some (.panic, t)
  | (some chosen, t) =>
    match chosen <|> values.findIdx? List.isEmpty with
    | some i => from_ i t
    | none => some (.next, t)

end Flow

/-! ## Simple statements -/

/-- What simple statements and conditions do. What may panic is told by a missing answer. -/
structure Meaning (σ : Type) where
  /-- Runs a simple statement, or takes the values of a return. -/
  act : Go.Stmt → σ → Option Unit × σ
  test : Expr → σ → Option Bool × σ
  /-- The first case with a value that is equal to the tag. -/
  equal : Expr → List (List Expr) → σ → Option (Option Nat) × σ
  /-- Takes the value that a loop ranges over. -/
  start : Option Expr → Option Expr → Expr → σ → Option Unit × σ
  /-- Moves on to the next element, if there is one. -/
  advance : Option Expr → Option Expr → Expr → σ → Option Bool × σ

namespace Meaning

variable {σ : Type} (M : Meaning σ)

/-- The flow of what completes or panics. -/
def flow (f : σ → Option Unit × σ) : Flow σ := fun s =>
  match f s with
  | (some _, t) => some (.next, t)
  | (none, t) => some (.panic, t)

def simple (s : Go.Stmt) : Flow σ := flow (M.act s)

/-- A part of a loop's head that may be absent. -/
def part : Option Go.Stmt → Flow σ
  | some s => M.simple s
  | none => .skip

def check : Option Expr → σ → Option Bool × σ
  | some e, s => M.test e s
  | none, s => (some true, s)

/-- Whether one of the conditions is true; the others after it are not tested. -/
def anyTrue : List Expr → σ → Option Bool × σ
  | [], s => (some false, s)
  | e :: es, s =>
    match M.test e s with
    | (some false, t) => anyTrue es t
    | r => r

/-- The first case with a condition that is true, counted from a number on. -/
def firstTrue : Nat → List (List Expr) → σ → Option (Option Nat) × σ
  | _, [], s => (some none, s)
  | k, values :: rest, s =>
    match M.anyTrue values s with
    | (some false, t) => firstTrue (k + 1) rest t
    | (some true, t) => (some (some k), t)
    | (none, t) => (none, t)

/-- The case that a switch enters: the one with an equal value, or with a true condition. -/
def chosen : Option Expr → List (List Expr) → σ → Option (Option Nat) × σ
  | some tag => M.equal tag
  | none => M.firstTrue 0

end Meaning

/-! ## Go -/

section

variable {σ : Type} (M : Meaning σ) (n : Nat)

mutual

/-- What a Go statement does, with the labels before it. Loops take `n` rounds at most. -/
def Go.Stmt.run (labels : List String) : Go.Stmt → Flow σ
  | .empty => .skip
  | .labeled label s => s.run (label :: labels)
  | .return values => .andThen (M.simple (.return values)) (.exit .return)
  | .branch .break label => .exit (.break label)
  | .branch .continue label => .exit (.continue label)
  | .branch .goto label => .exit (.goto label)
  | .branch .fallthrough _ => .exit .fall
  | .block body => .mapExit (·.past labels) (runAll body)
  | .ifElse init cond body alternative =>
    .andThen (runBefore init)
      (.mapExit (·.past labels) (.choose (M.test cond) (runAll body) (runBefore alternative)))
  | .switch init tag cs =>
    .andThen (runBefore init)
      (.mapExit (·.leave labels) (.enter (M.chosen tag (cs.map (·.values))) (cs.map (·.values))
        fun i => .cascade .fall ((runCases cs).drop i)))
  | .for init cond post body =>
    .andThen (M.part init) (.loop labels (M.check cond) (runAll body) (M.part post) n)
  | .range key value _ iterable body =>
    .andThen (Meaning.flow (M.start key value iterable))
      (.loop labels (M.advance key value iterable) (runAll body) .skip n)
  | .decl d => M.simple (.decl d)
  | .expr e => M.simple (.expr e)
  | .incDec e up => M.simple (.incDec e up)
  | .assign targets op values => M.simple (.assign targets op values)
  | .go call => M.simple (.go call)
  | .defer call => M.simple (.defer call)
  | .unsupported kind => M.simple (.unsupported kind)

def Go.Stmt.runBefore : Option Go.Stmt → Flow σ
  | none => .skip
  | some s => s.run []

def Go.Stmt.runAll : List Go.Stmt → Flow σ
  | [] => .skip
  | s :: ss => .andThen (s.run []) (runAll ss)

def Go.Stmt.runCases : List CaseClause → List (Flow σ)
  | [] => []
  | .mk _ body :: cs => runAll body :: runCases cs

end

/-! ## Java -/

namespace Java

mutual

/-- What a Java statement does, with the labels before it. -/
def Stmt.run (labels : List String) : Stmt → Flow σ
  | .simple s => M.simple s
  | .return values => .andThen (M.simple (.return values)) (.exit .return)
  | .comment _ | .label _ => .skip
  | .break label => .exit (.break label)
  | .continue label => .exit (.continue label)
  | .leave => .exit (.break none)
  | .block body => .mapExit (·.past labels) (runAll [] body)
  | .ifElse cond body alternative =>
    .mapExit (·.past labels) (.choose (M.test cond) (runAll [] body) alternative.run)
  | .switch tag cases =>
    .mapExit (·.leave labels) (.enter (M.chosen (some tag) (cases.map (·.values)))
      (cases.map (·.values)) fun i => .cascade .next ((runCases cases).drop i))
  | .conditions cases =>
    .mapExit (·.past labels) (.enter (M.chosen none (cases.map (·.values))) (cases.map (·.values))
      fun i => (runCases cases)[i]?.getD .skip)
  | .for init cond post body =>
    .andThen (M.part init) (.loop labels (M.check cond) (runAll [] body) (M.part post) n)
  | .range key value iterable body =>
    .andThen (Meaning.flow (M.start key value iterable))
      (.loop labels (M.advance key value iterable) (runAll [] body) .skip n)

def Alternative.run : Alternative → Flow σ
  | .none => .skip
  | .chain s => s.run []
  | .block body => runAll [] body

/-- Statements in their order. A label belongs to the next of them. -/
def runAll (labels : List String) : List Stmt → Flow σ
  | [] => .skip
  | .label name :: ss => runAll (name :: labels) ss
  | s :: ss => .andThen (s.run labels) (runAll [] ss)

def runCases : List Case → List (Flow σ)
  | [] => []
  | .mk _ body :: cs => runAll [] body :: runCases cs

end

end Java

end

end GoToJava
