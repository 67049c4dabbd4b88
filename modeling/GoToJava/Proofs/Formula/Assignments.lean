import GoToJava.Proofs.Formula.Operands
import Mathlib.Data.List.Forall2

/-!
Parallel assignments. They are written as single assignments, one after the other, so the targets
get the values that were meant for them exactly if no value is changed by the assignments before its
own, which is sure only where none reads a name that an earlier one assigns to.
-/

namespace GoToJava

open Go (Expr)
open Emit Conversion Forms Java Formula

variable {names : String → String} {p : Program} {place : Place} {x : Emit Unit}

/-! ## One assignment after the other -/

namespace Conversion

/-- The single assignment of a value. -/
def single (a : Expr × Expr) : Go.Stmt := .assign [a.1] .assign [a.2]

/-- A target and the term of its value. -/
def pairOf (release : Release) (a : Expr × Expr) : Target × Term :=
  (⟨⟨a.1, expr release none a.1⟩, elementOf release a.1⟩, ⟨a.2, expr release none a.2⟩)

theorem zip_targets (release : Release) (as : List (Expr × Expr)) :
    (targets release (as.map (·.1))).zip (terms release (as.map (·.2))) =
      as.map (pairOf release) := by
  induction as with
  | nil => rfl
  | cons a as ih => exact congrArg (List.cons _) ih

theorem length_targets (release : Release) (es : List Expr) :
    (targets release es).length = es.length := by
  induction es with
  | nil => rfl
  | cons e es ih => exact congrArg (· + 1) ih

theorem stmt_parallel (release : Release) (chained : Bool) {as : List (Expr × Expr)}
    (h : 2 ≤ as.length) : stmt release chained (.assign (as.map (·.1)) .assign (as.map (·.2))) =
      pairAssigns .assign (as.map (pairOf release)) := by
  rcases as with _ | ⟨a, _ | ⟨b, as⟩⟩
  · simp at h
  · simp at h
  · have hlength : (targets release ((a :: b :: as).map (·.1))).length =
        (terms release ((a :: b :: as).map (·.2))).length := by
      rw [length_targets, length_terms, List.length_map, List.length_map]
    rw [← zip_targets]
    refine if_neg ?_
    simp only [Bool.or_eq_true, bne_iff_ne, not_or, not_not]
    exact ⟨Bool.false_ne_true, hlength⟩

theorem stmts_eq_forM (release : Release) (ss : List Go.Stmt) :
    stmts release ss = ss.forM (stmt release false) := by
  induction ss with
  | nil => rfl
  | cons s ss ih => exact congrArg (fun rest => stmt release false s >>= fun _ => rest) ih

end Conversion

theorem separated_cons (separator : String) (x : Emit Unit) (xs : List (Emit Unit)) :
    separated separator (x :: xs) = (do
      x
      xs.forM fun y => do
        print separator
        y) := by
  induction xs generalizing x with
  | nil => exact (bind_pure x).symm
  | cons y ys ih =>
    show (do
      x
      print separator
      separated separator (y :: ys)) = _
    rw [ih]
    rfl

/-- Two loops that do the same at each turn do the same. -/
theorem forM_map_congr {α β γ : Type} {s : α → β} {t : α → γ} {f : β → Emit Unit}
    {g : γ → Emit Unit} (h : ∀ a desk, f (s a) place desk = g (t a) place desk) (as : List α)
    (desk : Desk) : (as.map s).forM f place desk = (as.map t).forM g place desk := by
  induction as generalizing desk with
  | nil => rfl
  | cons a as ih =>
    show (as.map s).forM f place (f (s a) place desk).2 =
      (as.map t).forM g place (g (t a) place desk).2
    rw [h a desk]
    exact ih _

namespace Conversion

/-- A parallel assignment is written as the single assignments one after the other: as statements,
or as a list between the parentheses of a loop. -/
theorem stmt_parallel_apply (release : Release) (chained : Bool) {as : List (Expr × Expr)}
    (h : 2 ≤ as.length) (place : Place) (desk : Desk) :
    stmt release chained (.assign (as.map (·.1)) .assign (as.map (·.2))) place desk =
      if place.bare then
        separated ", " (as.map fun a => stmt release false (single a)) place desk
      else stmts release (as.map single) place desk := by
  rw [stmt_parallel release chained h]
  rcases as with _ | ⟨a, as⟩
  · simp at h
  cases hbare : place.bare with
  | true =>
    rw [if_pos rfl, List.map_cons, List.map_cons, separated_cons]
    refine forM_map_congr (fun b desk => ?_) as _
    show (if place.bare then _ else _ : Emit Unit) place desk = _
    rw [hbare]
    rfl
  | false =>
    rw [if_neg Bool.false_ne_true, stmts_eq_forM]
    refine forM_map_congr (fun b desk => ?_) as _
    show (if place.bare then _ else _ : Emit Unit) place desk = _
    rw [hbare]
    rfl

end Conversion

/-! ## Lines -/

/-- The action writes the text as a line of its own, and mentions classes at most. -/
def SaysLine (p : Program) (place : Place) (x : Emit Unit) (text : String) : Prop :=
  ∀ desk : Desk, p.Mentions desk.program → desk.program.Open place.draft →
    p.Mentions (x.result place desk).2.program ∧
      (x.result place desk).2.program.Open place.draft ∧ (x.result place desk).2.owed = true ∧
      (x.result place desk).2.program.drafts.text place.draft =
        desk.program.drafts.text place.draft ++
          (indentation place desk.owed ++ (text ++ "\n"))

theorem endStatement_of_not_bare (desk : Desk) (h : place.bare = false) :
    endStatement.result place desk = newline.result place ((print ";").result place desk).2 := by
  show (if place.bare then _ else _ : Emit Unit) place desk = _
  rw [h]
  rfl

theorem saysLine_endStatement {text : String} (hbare : place.bare = false)
    (h : Says p place x text) : SaysLine p place (x >>= fun _ => endStatement) (text ++ ";") := by
  intro desk hp hdraft
  obtain ⟨⟨hopen, howed, hwritten⟩, hmore⟩ := says_seq h (says_print ";") desk hp hdraft
  generalize hafter : ((x >>= fun _ => print ";").result place desk).2 = after at *
  have hresult : (x >>= fun _ => endStatement).result place desk =
      ((), ⟨after.program.write place.draft "\n", true⟩) := by
    rw [← hafter]
    exact endStatement_of_not_bare (x place desk).2 hbare
  have hbreak : (after.program.write place.draft "\n").drafts.text place.draft =
      after.program.drafts.text place.draft ++ "\n" := by
    rw [Program.write_of_open _ hopen.unjoined]
    exact Drafts.text_put_self _ _ hopen.known
  rw [hresult]
  refine ⟨hmore.trans (after.program.mentions_write _ _),
    (Program.goesOn_write hopen _ _).opened, rfl, ?_⟩
  rw [hbreak, hwritten]
  simp only [String.append_assoc]

theorem saysLine_congr {y : Emit Unit} {text : String} (h : ∀ desk : Desk,
      p.Mentions desk.program → x.result place desk = y.result place desk)
    (hy : SaysLine p place y text) : SaysLine p place x text := by
  intro desk hp hopen
  rw [h desk hp]
  exact hy desk hp hopen

/-- What can be assigned to. -/
inductive Cell where
  | name (text : String)
  | element (array : String) (index : Operand)
  deriving DecidableEq, Repr

variable {as : List (Cell × Operand)}

/-- A cell as it is read. -/
def Cell.operand : Cell → Operand
  | name text => .name text
  | element array index => .element array index

/-- The line of an assignment. -/
def lineText (names : String → String) (a : Cell × Operand) : String :=
  a.1.operand.text names ++ (" = " ++ a.2.text names) ++ ";"

/-- The expressions on both sides of an assignment. -/
def sides (a : Cell × Operand) : Expr × Expr := (a.1.operand.expr, a.2.expr)

namespace Forms

theorem plainAssign_name {text : String} (write : Emit Unit) (value : Term) (h : text ≠ "_") :
    plainAssign ⟨.ident text, write⟩ [] .assign value = (do
      write
      print " = "
      value.write) >>= fun _ => endStatement := by
  have hsource : (Expr.ident text).ident? ≠ some "_" := fun hblank => h (Option.some.inj hblank)
  unfold plainAssign
  rw [if_neg (by simpa using hsource)]
  rfl

/-- The new value of an element, as the type of the whole wants it. -/
def elementSet (base index value : Term) : Option Expr → Emit Unit
  | some (.mapType _ _) => mapPut base index (.set value)
  | _ => arraySet base index (.set value)

theorem elementUpdateNow_set (base index value : Term) : elementUpdateNow base index (.set value) =
      (sourceType base.source >>= elementSet base index value) >>= fun _ => endStatement := by
  unfold elementUpdateNow
  rw [bind_assoc]
  congr 1
  funext type
  cases type with
  | none => rfl
  | some type => cases type <;> rfl

end Forms

theorem saysLine_single (release : Release) (a : Cell × Operand) (hbare : place.bare = false)
    (hblank : a.1 ≠ .name "_")
    (harrays : ∀ x ∈ a.1.operand.arrays ++ a.2.arrays, p.IsArray place x) :
    SaysLine p place (stmt release false (single (sides a)))
      (lineText (identText p place) a) := by
  obtain ⟨hleft, hright⟩ := List.forall_mem_append.1 harrays
  obtain ⟨cell, value⟩ := a
  have hvalue : Says p place _ _ :=
    says_seq (says_print " = ") (Operand.says_expr release value none hright)
  cases cell with
  | name text =>
    have heq := plainAssign_name (ident text) (run.term release value.expr)
      fun h => hblank (congrArg Cell.name h)
    refine saysLine_congr (fun desk _ => congrArg (Emit.result · place desk) heq) ?_
    exact saysLine_endStatement hbare (says_seq (says_ident text) hvalue)
  | element array index =>
    have harray := hleft array List.mem_cons_self
    have hindex : Says p place _ _ := Operand.says_expr release index none fun x hx =>
      hleft x (List.mem_cons_of_mem _ hx)
    have heq := elementUpdateNow_set (run.term release (.ident array))
      (run.term release index.expr) (run.term release value.expr)
    refine saysLine_congr (fun desk hp => (defer_of_known _ harray.1 hp).trans
      (congrArg (Emit.result · place desk) heq)) (saysLine_endStatement hbare (says_source ?_))
    obtain ⟨-, length, type, htype⟩ := harray
    rw [show (run.term release (.ident array)).source = .ident array from rfl, htype]
    have hplace := says_seq (says_ident array) (says_seq (says_print "[")
      (says_seq hindex (says_print "]")))
    have hall := says_seq hplace hvalue
    exact hall

/-- The text of some lines, of which only the first may be indented already. -/
def linesText (place : Place) : Bool → List String → String
  | _, [] => ""
  | owed, line :: lines => indentation place owed ++ (line ++ "\n") ++ linesText place true lines

theorem text_stmts {release : Release} {ss : List Go.Stmt} {lines : List String} {desk : Desk}
    (hp : p.Mentions desk.program) (hopen : desk.program.Open place.draft)
    (h : List.Forall₂ (fun s line => SaysLine p place (stmt release false s) line) ss lines) :
    (stmts release ss place desk).2.program.drafts.text place.draft =
      desk.program.drafts.text place.draft ++ linesText place desk.owed lines := by
  induction h generalizing desk with
  | nil => exact (String.append_empty).symm
  | @cons s line ss lines hs _ ih =>
    obtain ⟨hmore, hstill, howed, hwritten⟩ := hs desk hp hopen
    have hrest := ih hmore hstill
    rw [howed, hwritten, String.append_assoc] at hrest
    exact hrest

/-! ## Reading the lines -/

/-- The assignment that Java reads in a line. -/
def assignmentOf (names : String → String) (a : Cell × Operand) : Java.Assignment :=
  ⟨tokensOf (a.1.operand.text names), tokensOf (a.2.text names)⟩

/-- Both sides of an assignment are written with words. -/
def SidesWords (names : String → String) (a : Cell × Operand) : Prop :=
  a.1.operand.Words names ∧ a.2.Words names

open Java (Reads reads_append)

theorem exists_reads_text {o : Operand} (h : o.Words names) :
    ∃ last ts, Reads .nothing (o.text names).toList last ts ∧
      ts ++ last.tokens = tokensOf (o.text names) ∧ ∀ t ∈ tokensOf (o.text names), t.IsInner := by
  obtain ⟨last, ts, hreads, hinner⟩ := Operand.readsInner_text h none
  have htokens : ts ++ last.tokens = tokensOf (o.text names) := by
    rw [tokensOf, scan_of_reads hreads]
    rfl
  rw [htokens] at hinner
  exact ⟨last, ts, hreads, htokens, hinner⟩

theorem isInner_sides {a : Cell × Operand} (h : SidesWords names a) :
    ∀ t ∈ (assignmentOf names a).place ++ (assignmentOf names a).value, t.IsInner := by
  obtain ⟨_, _, _, _, hplace⟩ := exists_reads_text h.1
  obtain ⟨_, _, _, _, hvalue⟩ := exists_reads_text h.2
  exact List.forall_mem_append.2 ⟨hplace, hvalue⟩

theorem reads_equals (part : Java.Part) :
    Reads part " = ".toList .nothing (part.tokens ++ [.operator ['=']]) := by
  have hblank : ∀ part, Reads part [' '] .nothing part.tokens := fun part =>
    reads_blank part (by decide)
  have hequals : Reads .nothing ['='] (.operator ['=']) [] := reads_of_step (by decide)
  have hall := reads_append (reads_append (hblank part) hequals) (hblank _)
  rw [List.append_nil] at hall
  exact hall

theorem reads_lineText {a : Cell × Operand} (h : SidesWords names a) :
    Reads .nothing (lineText names a).toList .nothing (assignmentOf names a).tokens := by
  obtain ⟨last, ts, hplace, htokens, -⟩ := exists_reads_text h.1
  obtain ⟨last', ts', hvalue, htokens', -⟩ := exists_reads_text h.2
  have hend : Reads last' ";".toList .nothing _ := reads_separator last' (by decide)
  have hall := reads_append (reads_append hplace (reads_append (reads_equals last) hvalue)) hend
  rw [Java.Assignment.tokens, assignmentOf, ← htokens, ← htokens', lineText]
  simp only [String.toList_append, List.append_assoc, List.cons_append] at hall ⊢
  exact hall

theorem reads_linesText (place : Place) (owed : Bool) (h : ∀ a ∈ as, SidesWords names a) :
    Reads .nothing (linesText place owed (as.map (lineText names))).toList .nothing
      ((as.map (assignmentOf names)).flatMap Java.Assignment.tokens) := by
  induction as generalizing owed with
  | nil => exact reads_nil _
  | cons a as ih =>
    have hindent := reads_blanks (isBlank_indentation place owed)
    have hline := reads_lineText (h a List.mem_cons_self)
    have hbreak : Reads .nothing "\n".toList .nothing [] := reads_blank .nothing (by decide)
    have hrest := ih true fun b hb => h b (List.mem_cons_of_mem _ hb)
    have hall := reads_append (reads_append hindent (reads_append hline hbreak)) hrest
    rw [List.map_cons, List.map_cons, List.flatMap_cons, linesText]
    simp only [String.toList_append, List.append_assoc, List.nil_append] at hall ⊢
    exact hall

theorem assignments?_linesText (place : Place) (owed : Bool) (h : ∀ a ∈ as, SidesWords names a) :
    assignments? (linesText place owed (as.map (lineText names))) =
      some (as.map (assignmentOf names)) := by
  rw [assignments?, scan_of_reads (reads_linesText place owed h), Option.bind_some,
    Java.Part.tokens, List.append_nil]
  refine assignmentsFrom_tokens fun a ha => ?_
  obtain ⟨b, hb, rfl⟩ := List.mem_map.1 ha
  exact isInner_sides (h b hb)

/-! ## Parallel assignments -/

/-- The sides of the assignment can be written at the place, and something is assigned to. -/
structure Assignable (p : Program) (place : Place) (a : Cell × Operand) : Prop where
  named : a.1 ≠ .name "_"
  target : a.1.operand.Lexed
  value : a.2.Lexed
  arrays : ∀ x ∈ a.1.operand.arrays ++ a.2.arrays, p.IsArray place x

/-- A parallel assignment is written as the single assignments of its values, one after the other,
whatever its sides are. Where both sides are variables, elements of arrays and formulas of them,
Java reads just these assignments; and after them each target has the value that was meant for it
exactly if no value was changed before its turn. For different targets that is sure exactly if no
assignment reads a name that an earlier one assigns to. -/
theorem parallel_assignments_are_made_in_turn (release : Release) (chained : Bool)
    {as : List (Cell × Operand)} (hmany : 2 ≤ as.length) (p : Program) (cursor : Cursor)
    (hbare : cursor.place.bare = false) (hopen : p.Open cursor.place.draft)
    (has : ∀ a ∈ as, Assignable p cursor.place a) :
    (∀ es : List (Expr × Expr), 2 ≤ es.length → ∀ place desk,
      stmt release chained (.assign (es.map (·.1)) .assign (es.map (·.2))) place desk =
        if place.bare then
          separated ", "
            (es.map fun e => stmt release false (.assign [e.1] .assign [e.2])) place desk
        else
          stmts release (es.map fun e => .assign [e.1] .assign [e.2]) place desk) ∧
    let made := as.map (assignmentOf (identText p cursor.place))
    ∃ text,
      (p.emit cursor (stmt release chained
        (.assign (as.map (·.1.operand.expr)) .assign (as.map (·.2.expr))))).2.drafts.text
          cursor.place.draft = p.drafts.text cursor.place.draft ++ text ∧
      assignments? text = some made ∧
      (∀ {Store Loc Value : Type} (M : Java.Machine Store Loc Value) (s : Store), M.Steady s made →
        ((∀ i (hi : i < made.length),
            M.get (M.run s made) (M.locate s made[i].place) = M.value s made[i].value) ↔
          ∀ i (hi : i < made.length),
            M.value (M.run s (made.take i)) made[i].value = M.value s made[i].value)) ∧
      ((made.map (·.place)).Nodup → (Java.Simultaneous made ↔ Java.Independent made)) := by
  refine ⟨fun es hes => stmt_parallel_apply release chained hes, ?_⟩
  have hlines : List.Forall₂ (fun s line => SaysLine p cursor.place (stmt release false s) line)
      ((as.map sides).map single) (as.map (lineText (identText p cursor.place))) := by
    rw [List.map_map, List.forall₂_map_left_iff, List.forall₂_map_right_iff, List.forall₂_same]
    exact fun a ha => saysLine_single release a hbare (has a ha).named (has a ha).arrays
  have hwords : ∀ a ∈ as, SidesWords (identText p cursor.place) a := fun a ha =>
    ⟨Operand.words_of_lexed (has a ha).target p cursor.place,
      Operand.words_of_lexed (has a ha).value p cursor.place⟩
  have hsides : 2 ≤ (as.map sides).length := by
    rw [List.length_map]
    exact hmany
  have hstmt := stmt_parallel_apply release chained hsides cursor.place ⟨p, cursor.owed⟩
  rw [hbare, if_neg Bool.false_ne_true, List.map_map, List.map_map] at hstmt
  refine ⟨_, ?_, assignments?_linesText cursor.place cursor.owed hwords,
    fun M s => Java.Machine.forall_get_run_iff, simultaneous_iff⟩
  have htext : (stmts release _ cursor.place ⟨p, cursor.owed⟩).2.program.drafts.text
      cursor.place.draft = _ := text_stmts (.refl p) hopen hlines
  rw [← hstmt] at htext
  exact htext

/-- The exchange of a variable and an element of an array: `a, xs[i] = xs[i], a`. -/
def exchange : List (Cell × Operand) :=
  [(.name "a", .element "xs" (.name "i")), (.element "xs" (.name "i"), .name "a")]

/-- The values of both are moved on: `b, xs[i] = xs[i], a + 1`. -/
def rotation : List (Cell × Operand) :=
  [(.name "b", .element "xs" (.name "i")),
    (.element "xs" (.name "i"), .binary (.name "a") .add (.number "1"))]

/-- A page on which everything is written at once, and a variable of a named array type. -/
def arrayPage : Program :=
  { onePage with
    phase := .finalization
    typeNames := .ofList [("Row", .arrayType none (.ident "Cell"))]
    scopes := (({} : Scopes).new none).setVar 0 "xs" (.ident "Row") }

theorem isArray_xs : arrayPage.IsArray indentedLine.place "xs" :=
  ⟨by decide, none, .ident "Cell", by with_unfolding_all rfl⟩

/-- All arrays being the one of the page, assignments can be told to be assignable. -/
theorem assignable_of_xs (h : ∀ a ∈ as, a.1 ≠ .name "_" ∧ a.1.operand.Lexed ∧ a.2.Lexed ∧
      ∀ x ∈ a.1.operand.arrays ++ a.2.arrays, x = "xs") :
    ∀ a ∈ as, Assignable arrayPage indentedLine.place a := by
  intro a ha
  obtain ⟨hnamed, htarget, hvalue, harrays⟩ := h a ha
  exact ⟨hnamed, htarget, hvalue, fun x hx => harrays x hx ▸ isArray_xs⟩

theorem exchange_fails_and_rotation_works :
    ((∀ a ∈ exchange, Assignable arrayPage indentedLine.place a) ∧
      ∃ text made, (arrayPage.emit indentedLine (stmt (fun _ _ => pure ()) false
          (.assign (exchange.map (·.1.operand.expr)) .assign
            (exchange.map (·.2.expr))))).2.drafts.text 0 = arrayPage.drafts.text 0 ++ text ∧
        assignments? text = some made ∧ ¬ Java.Simultaneous made) ∧
    ((∀ a ∈ rotation, Assignable arrayPage indentedLine.place a) ∧
      ∃ text made, (arrayPage.emit indentedLine (stmt (fun _ _ => pure ()) false
          (.assign (rotation.map (·.1.operand.expr)) .assign
            (rotation.map (·.2.expr))))).2.drafts.text 0 = arrayPage.drafts.text 0 ++ text ∧
        assignments? text = some made ∧ Java.Simultaneous made) := by
  have hexchange : ∀ a ∈ exchange, Assignable arrayPage indentedLine.place a :=
    assignable_of_xs (by decide +kernel)
  have hrotation : ∀ a ∈ rotation, Assignable arrayPage indentedLine.place a :=
    assignable_of_xs (by decide +kernel)
  refine ⟨⟨hexchange, ?_⟩, hrotation, ?_⟩
  · obtain ⟨-, text, hwritten, hread, -, hiff⟩ := parallel_assignments_are_made_in_turn
      (fun _ _ => pure ()) false (by decide) arrayPage indentedLine rfl
      ⟨by decide, by decide⟩ hexchange
    refine ⟨text, _, hwritten, hread, fun h => ?_⟩
    exact absurd ((hiff (by decide +kernel)).1 h) (by decide +kernel)
  · obtain ⟨-, text, hwritten, hread, -, hiff⟩ := parallel_assignments_are_made_in_turn
      (fun _ _ => pure ()) false (by decide) arrayPage indentedLine rfl
      ⟨by decide, by decide⟩ hrotation
    exact ⟨text, _, hwritten, hread, (hiff (by decide +kernel)).2 (by decide +kernel)⟩

end GoToJava
