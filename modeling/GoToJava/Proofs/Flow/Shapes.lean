import GoToJava.Conversion

/-!
Shapes of Java statements. A Go statement becomes a list of Java statements. Main statement: its
text is the text of this list, so that what the text does can be told from the list.
-/

namespace GoToJava

open Go (Expr CaseClause)
open Emit Conversion Forms

namespace Java

mutual

/-- A Java statement, or what stands before one. Simple statements are kept as they are in Go. -/
inductive Stmt where
  /-- Declarations, calls, assignments, and the start of a thread. -/
  | simple (s : Go.Stmt)
  | return (values : List Expr)
  /-- A comment in the place of a Go statement. -/
  | comment (s : Go.Stmt)
  /-- The label of the statement that follows. -/
  | label (name : String)
  | break (label : Option String)
  | continue (label : Option String)
  /-- The break at the end of a case. -/
  | leave
  | block (body : List Stmt)
  | ifElse (cond : Expr) (body : List Stmt) (alternative : Alternative)
  | switch (tag : Expr) (cases : List Case)
  /-- A chain of conditions. Only the case of the first true one is run, or else the default. -/
  | conditions (cases : List Case)
  | for (init : Option Go.Stmt) (cond : Option Expr) (post : Option Go.Stmt) (body : List Stmt)
  | range (key value : Option Expr) (iterable : Expr) (body : List Stmt)

/-- A case of a switch or of a chain. The default case has no values. -/
inductive Case where
  | mk (values : List Expr) (body : List Stmt)

/-- What follows `else`. -/
inductive Alternative where
  | none
  /-- An if statement in the same line. -/
  | chain (s : Stmt)
  | block (body : List Stmt)

end

def Case.values : Case → List Expr
  | mk vs _ => vs

def Case.body : Case → List Stmt
  | mk _ b => b

/-! ## Texts -/

section

variable (release : Release)

mutual

/-- Writes a statement. In a chain of conditions, no line ends after an if statement. -/
def Stmt.write (chained : Bool) : Stmt → Emit Unit
  | .simple s | .comment s => stmt release false s
  | .return values => returns (terms release values)
  | .label name => do
    print name
    print ": "
  | .break label => branch .break label
  | .continue label => branch .continue label
  | .leave => println "break;"
  | .block body => do
    println "\x7b"
    blockLines (writeAll body)
    println ""
  | .ifElse cond body alternative => do
    print "if ("
    expr release none cond
    print ")"
    block (writeAll body)
    alternative.write
    unless chained do println ""
  | .switch tag cases => switch (expr release none tag) (caseForms cases)
  | .conditions cases => conditions (caseForms cases)
  | .for init cond post body =>
    forLoop (init.map (stmt release false)) (cond.map (expr release none))
      (post.map (stmt release false)) (writeAll body)
  | .range key value iterable body =>
    rangeLoop key value ⟨iterable, expr release none iterable⟩ (writeAll body)

def Alternative.write : Alternative → Emit Unit
  | .none => pure ()
  | .chain s => do
    print " else "
    s.write true
  | .block body => do
    print " else"
    block (writeAll body)

def writeAll : List Stmt → Emit Unit
  | [] => pure ()
  | s :: ss => do
    s.write false
    writeAll ss

/-- The cases as they stand: a break at their end is one of their statements. -/
def caseForms : List Case → List CaseForm
  | [] => []
  | .mk values body :: cs =>
    ⟨(terms release values).map (·.write), writeAll body, true⟩ :: caseForms cs

end

end

end Java

/-! ## Shapes of Go statements -/

/-- A case of a switch with a tag ends with a break unless it leaves by itself. -/
def Go.Stmt.caseEnd (tagged : Bool) (body : List Go.Stmt) : List Java.Stmt :=
  if tagged && !leavesCase body then [.leave] else []

mutual

/-- The Java statements that a Go statement becomes. -/
def Go.Stmt.shape : Go.Stmt → List Java.Stmt
  | .empty | .unsupported _ | .branch .fallthrough _ => []
  | .labeled label s => .label label :: s.shape
  | .return values => [.return values]
  | .branch .break label => [.break label]
  | .branch .continue label => [.continue label]
  | .branch .goto label => [.comment (.branch .goto label)]
  | .defer call => [.comment (.defer call)]
  | .block body => [.block (shapes body)]
  | .ifElse init cond body alternative =>
    beforeShape init ++ [.ifElse cond (shapes body) (alternativeShape alternative)]
  | .switch init (some tag) cs => beforeShape init ++ [.switch tag (caseShapes true cs)]
  | .switch init none [] => beforeShape init
  | .switch init none cs => beforeShape init ++ [.conditions (caseShapes false cs)]
  | .for init cond post body => [.for init cond post (shapes body)]
  | .range key value _ iterable body => [.range key value iterable (shapes body)]
  | .decl d => [.simple (.decl d)]
  | .expr e => [.simple (.expr e)]
  | .incDec e up => [.simple (.incDec e up)]
  | .assign targets op values => [.simple (.assign targets op values)]
  | .go call => [.simple (.go call)]

/-- The statement before a condition or a tag stands before the whole. -/
def Go.Stmt.beforeShape : Option Go.Stmt → List Java.Stmt
  | none => []
  | some s => s.shape

def Go.Stmt.alternativeShape : Option Go.Stmt → Java.Alternative
  | none => .none
  | some (.block body) => .block (shapes body)
  | some (.ifElse none cond body alternative) =>
    .chain (.ifElse cond (shapes body) (alternativeShape alternative))
  | some s => .block s.shape

def Go.Stmt.shapes : List Go.Stmt → List Java.Stmt
  | [] => []
  | s :: ss => s.shape ++ shapes ss

def Go.Stmt.caseShapes (tagged : Bool) : List CaseClause → List Java.Case
  | [] => []
  | .mk values body :: cs =>
    .mk values (shapes body ++ caseEnd tagged body) :: caseShapes tagged cs

end

/-! ## The text is that of the shape -/

namespace Java

open Go.Stmt (shapes beforeShape alternativeShape caseEnd caseShapes)

variable (release : Release)

theorem writeAll_append (ss ts : List Stmt) :
    writeAll release (ss ++ ts) = writeAll release ss >>= fun _ => writeAll release ts := by
  induction ss with
  | nil => rfl
  | cons s ss ih =>
    show (s.write release false >>= fun _ => writeAll release (ss ++ ts)) =
      (s.write release false >>= fun _ => writeAll release ss) >>= fun _ => writeAll release ts
    rw [ih, bind_assoc]

theorem writeAll_singleton (s : Stmt) : writeAll release [s] = s.write release false := by
  exact bind_pure_unit

/-- A case whose body has all its statements, also the break that Java needs at its end. -/
def closed (tagged : Bool) (c : CaseForm) : CaseForm where
  values := c.values
  body := if tagged && !c.leaves then (do c.body; println "break;") else c.body
  leaves := true

theorem forM_closed (tagged : Bool) (cases : List CaseForm) (f : CaseForm → Emit Unit) :
    (cases.map (closed tagged)).forM f = cases.forM fun c => f (closed tagged c) := List.forM_map

/-- The lines of a case. -/
def caseLines (c : CaseForm) : Emit Unit := do
  if c.values.isEmpty then println "default:"
  c.values.forM fun value => do
    print "case "
    value
    println ":"
  indented do
    c.body
    unless c.leaves do println "break;"

theorem switch_eq (tag : Emit Unit) (cases : List CaseForm) : switch tag cases = (do
    print "switch ("
    tag
    println ") \x7b"
    cases.forM caseLines
    println "\x7d") := rfl

theorem caseLines_closed (c : CaseForm) : caseLines (closed true c) = caseLines c := by
  obtain ⟨values, body, leaves⟩ := c
  cases leaves with
  | true => rfl
  | false =>
    have hbody : ((body >>= fun _ => println "break;") >>= fun _ => pure ()) =
        body >>= fun _ => println "break;" := bind_pure_unit
    exact congrArg (fun lines => do
      if values.isEmpty then println "default:"
      values.forM fun value => do
        print "case "
        value
        println ":"
      indented lines) hbody

/-- The breaks of a switch may as well be statements of its cases. -/
theorem switch_of_closed (tag : Emit Unit) (cases : List CaseForm) :
    switch tag (cases.map (closed true)) = switch tag cases := by
  have hlines : (fun c => caseLines (closed true c)) = caseLines := funext caseLines_closed
  rw [switch_eq, switch_eq, forM_closed, hlines]

theorem conditions_of_closed (cases : List CaseForm) :
    conditions (cases.map (closed false)) = conditions cases := by
  have hfilter : (cases.map (closed false)).filter (!·.values.isEmpty) =
      (cases.filter (!·.values.isEmpty)).map (closed false) := List.filter_map
  have hfind : (cases.map (closed false)).find? (·.values.isEmpty) =
      (cases.find? (·.values.isEmpty)).map (closed false) := List.find?_map
  unfold conditions
  rw [hfilter, hfind]
  simp only [List.isEmpty_map]
  cases cases.filter (!·.values.isEmpty) with
  | nil => cases cases.find? (·.values.isEmpty) <;> rfl
  | cons first rest =>
    simp only [List.map_cons, forM_closed]
    cases cases.find? (·.values.isEmpty) <;> rfl

/-- An if statement up to its body, and what follows. -/
def ifText (cond body rest : Emit Unit) : Emit Unit := do
  print "if ("
  cond
  print ")"
  block body
  rest

/-- The statement before a condition is written first, on its own. -/
theorem stmt_of_init (init : Go.Stmt) (cond : Expr) (body : List Go.Stmt)
    (alternative : Option Go.Stmt) :
    stmt release false (.ifElse (some init) cond body alternative) =
      stmt release false init >>= fun _ =>
        stmt release false (.ifElse none cond body alternative) := by
  cases alternative with
  | none => rfl
  | some s =>
    cases s with
    | ifElse init cond body alternative => cases init <;> rfl
    | _ => rfl

mutual

theorem stmt_eq_shape : (s : Go.Stmt) →
    stmt release false s = writeAll release s.shape
  | .empty | .unsupported _ | .branch .fallthrough _ => rfl
  | .labeled label s => by
    show (print label >>= fun _ => print ": " >>= fun _ => stmt release false s) =
      (print label >>= fun _ => print ": ") >>= fun _ => writeAll release s.shape
    rw [stmt_eq_shape s, bind_assoc]
  | .return values => (writeAll_singleton release (.return values)).symm
  | .branch .break label => (writeAll_singleton release (.break label)).symm
  | .branch .continue label => (writeAll_singleton release (.continue label)).symm
  | .branch .goto label => (writeAll_singleton release (.comment (.branch .goto label))).symm
  | .defer call => (writeAll_singleton release (.comment (.defer call))).symm
  | .decl d => (writeAll_singleton release (.simple (.decl d))).symm
  | .expr e => (writeAll_singleton release (.simple (.expr e))).symm
  | .incDec e up => (writeAll_singleton release (.simple (.incDec e up))).symm
  | .assign targets op values =>
    (writeAll_singleton release (.simple (.assign targets op values))).symm
  | .go call => (writeAll_singleton release (.simple (.go call))).symm
  | .block body => by
    refine Eq.trans ?_ (writeAll_singleton release (.block (shapes body))).symm
    show (do
      println "\x7b"
      blockLines (stmts release body)
      println "") = _
    rw [stmts_eq_shapes body]
    rfl
  | .ifElse none cond body alternative => by
    refine Eq.trans ?_ (writeAll_singleton release _).symm
    exact if_eq_shape false cond (stmts_eq_shapes body) alternative
  | .ifElse (some init) cond body alternative => by
    rw [stmt_of_init, stmt_eq_shape init, if_eq_shape false cond (stmts_eq_shapes body) alternative]
    show _ = writeAll release (init.shape ++ [_])
    rw [writeAll_append, writeAll_singleton]
  | .switch init (some tag) cs => by
    have hswitch : switch (expr release none tag) (cases release cs) =
        writeAll release [.switch tag (caseShapes true cs)] := by
      rw [writeAll_singleton]
      show _ = switch _ (caseForms release (caseShapes true cs))
      rw [cases_eq_shapes true cs, switch_of_closed]
    show _ = writeAll release (beforeShape init ++ _)
    rw [writeAll_append, ← hswitch, ← before_eq_shape init]
    cases init <;> rfl
  | .switch init none [] => by
    refine Eq.trans ?_ (before_eq_shape init)
    cases init with
    | none => rfl
    | some s => exact bind_pure_unit
  | .switch init none (c :: cs) => by
    have hconditions : conditions (cases release (c :: cs)) =
        writeAll release [.conditions (caseShapes false (c :: cs))] := by
      rw [writeAll_singleton]
      show _ = conditions (caseForms release (caseShapes false (c :: cs)))
      rw [cases_eq_shapes false (c :: cs), conditions_of_closed]
    show _ = writeAll release (beforeShape init ++ _)
    rw [writeAll_append, ← hconditions, ← before_eq_shape init]
    cases init <;> rfl
  | .for init cond post body => by
    have hbody := stmts_eq_shapes body
    refine Eq.trans ?_ (writeAll_singleton release (.for init cond post (shapes body))).symm
    have hloop : stmt release false (.for init cond post body) = forLoop
        (init.map (stmt release false)) (cond.map (expr release none))
        (post.map (stmt release false)) (stmts release body) := by
      cases init <;> cases cond <;> cases post <;> rfl
    rw [hloop, hbody]
    rfl
  | .range key value _ iterable body => by
    refine Eq.trans ?_ (writeAll_singleton release (.range key value iterable (shapes body))).symm
    show rangeLoop key value _ (stmts release body) = _
    rw [stmts_eq_shapes body]
    rfl

/-- The end of the line belongs to the last if statement of a chain. -/
theorem if_eq_shape (chained : Bool) (cond : Expr) {body : List Go.Stmt}
    (hbody : stmts release body = writeAll release (shapes body)) :
    (alternative : Option Go.Stmt) →
    stmt release chained (.ifElse none cond body alternative) =
      (Stmt.ifElse cond (shapes body) (alternativeShape alternative)).write release chained
  | none => by
    show ifText (expr release none cond) (stmts release body)
      (if chained then pure () else println "") = _
    rw [hbody]
    rfl
  | some s => by
    -- What is no if statement stands in a block, also if it is one already.
    have helse : ∀ (other : Emit Unit) (inner : List Stmt) (x y : Emit Unit),
        other = writeAll release inner →
        x = ifText (expr release none cond) (stmts release body) (do
          print " else"
          block other
          if chained then pure () else println "") →
        y = ifText (expr release none cond) (writeAll release (shapes body)) ((do
          print " else"
          block (writeAll release inner)) >>= fun _ =>
            if chained then pure () else println "") → x = y := by
      intro other inner x y hother hx hy
      rw [hx, hy, hbody, hother, bind_assoc]
    have hs := stmt_eq_shape s
    cases s with
    | block other => exact helse _ _ _ _ (stmts_eq_shapes other) rfl rfl
    | ifElse init cond' body' alternative =>
      cases init with
      | none =>
        have hchain := if_eq_shape true cond' (stmts_eq_shapes body') alternative
        show ifText (expr release none cond) (stmts release body) (do
          print " else "
          stmt release true (.ifElse none cond' body' alternative)
          if chained then pure () else println "") =
            ifText (expr release none cond) (writeAll release (shapes body)) ((do
              print " else "
              (Stmt.ifElse cond' (shapes body') (alternativeShape alternative)).write release true)
                >>= fun _ => if chained then pure () else println "")
        rw [hbody, hchain, bind_assoc]
      | some init => exact helse _ _ _ _ hs rfl rfl
    | _ => exact helse _ _ _ _ hs rfl rfl

theorem before_eq_shape : (init : Option Go.Stmt) →
    (match init with
      | some s => stmt release false s
      | none => pure ()) = writeAll release (beforeShape init)
  | none => rfl
  | some s => stmt_eq_shape s

theorem cases_eq_shapes (tagged : Bool) : (cs : List CaseClause) →
    caseForms release (caseShapes tagged cs) = (cases release cs).map (closed tagged)
  | [] => rfl
  | .mk values body :: cs => by
    have hbody : writeAll release (shapes body ++ caseEnd tagged body) =
        if tagged && !leavesCase body then
          stmts release body >>= fun _ => println "break;"
        else stmts release body := by
      rw [stmts_eq_shapes body]
      unfold caseEnd
      split
      · rw [writeAll_append, writeAll_singleton]
        rfl
      · rw [List.append_nil]
    show CaseForm.mk _ (writeAll release _) true :: caseForms release (caseShapes tagged cs) = _
    rw [hbody, cases_eq_shapes tagged cs]
    rfl

theorem stmts_eq_shapes : (ss : List Go.Stmt) →
    stmts release ss = writeAll release (shapes ss)
  | [] => rfl
  | s :: ss => by
    show (stmt release false s >>= fun _ => stmts release ss) =
      writeAll release (s.shape ++ shapes ss)
    rw [writeAll_append, stmt_eq_shape s, stmts_eq_shapes ss]

end

end Java

end GoToJava
