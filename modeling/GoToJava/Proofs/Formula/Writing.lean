import GoToJava.Proofs.Formula.Reading
import GoToJava.Proofs.Loops.Answers

/-!
Formulas are written operand by operand, with no parentheses but their own. Java reads what Go means
exactly if the levels of the two languages agree on the formula and no sign stands right before the
same sign.
-/

namespace GoToJava

open Emit Forms

variable {p q : Program} {x y : Emit Unit} {place : Place} {desk : Desk} {t s text : String}

/-! ## Names -/

namespace Forms

/-- A name that is neither the receiver nor the number of a constant. -/
def plainText (p : Program) (place : Place) (name : String) : String :=
  match p.importName place (Go.title name) with
  | some _ => if p.isVar place name then Java.identifier name else Go.title name
  | none => Java.identifier name

/-- How a name is written at a place. -/
def identText (p : Program) (place : Place) (name : String) : String :=
  if (place.receiver.map (·.name)) == some name then "this"
  else
    match p.iota with
    | some n => if name == "iota" then toString n else plainText p place name
    | none => plainText p place name

theorem isWord_plainText {name : String} (p : Program) (place : Place) (h : IsWord name) :
    IsWord (plainText p place name) := by
  unfold plainText
  split
  · split
    · exact isWord_identifier h
    · exact isWord_title h
  · exact isWord_identifier h

theorem isWord_identText {name : String} (p : Program) (place : Place) (h : IsWord name) :
    IsWord (identText p place name) := by
  unfold identText
  split
  · decide
  · split
    · split
      · exact isWord_nat _
      · exact isWord_plainText p place h
    · exact isWord_plainText p place h

end Forms

/-- Names are written in the same way when more classes were mentioned. -/
theorem Program.Mentions.identText (h : p.Mentions q) (place : Place) :
    identText q place = identText p place := by
  have hsame := (h.sameLore (S := everywhere)).akin
  have hiota : q.iota = p.iota := congrArg (·.iota) h.same
  have hplain : plainText q place = plainText p place := by
    funext name
    unfold plainText
    rw [hsame.importName ⟨rfl, rfl, rfl⟩, hsame.isVar ⟨rfl, rfl, rfl⟩ trivial]
  funext name
  unfold Forms.identText
  rw [hiota, hplain]

theorem Formula.words_of_lexed {f : Formula} (h : f.Lexed) (p : Program) (place : Place) :
    f.Words (identText p place) := by
  induction f with
  | name text =>
    exact isWord_identText p place (Go.Lexeme.isWord_of_scan Go.Lexeme.scansWord_identifier h)
  | number text => exact isWord_intLit (Go.Lexeme.isWord_of_scan Go.Lexeme.scansWord_int h)
  | paren inner ih => exact ih h
  | unary sign operand ih => exact ih h
  | binary left op right ihl ihr => exact ⟨ihl h.1, ihr h.2⟩

/-! ## Saying -/

/-- The indentation that comes before the next text. -/
def indentation (place : Place) (owed : Bool) : String :=
  if owed then "".pushn '\t' place.tabs else ""

/-- Text can be written to the draft. -/
structure Program.Open (p : Program) (draft : Nat) : Prop where
  known : draft < p.drafts.next
  unjoined : p.drafts.isJoined draft = false

/-- At this place and desk the action writes the text, after the indentation that is owed. -/
structure AddsAt (place : Place) (desk : Desk) (x : Emit Unit) (text : String) : Prop where
  opened : (x.result place desk).2.program.Open place.draft
  owed : (x.result place desk).2.owed = false
  written : (x.result place desk).2.program.drafts.text place.draft =
    desk.program.drafts.text place.draft ++ (indentation place desk.owed ++ text)

theorem addsAt_seq (hx : AddsAt place desk x s) (hy : AddsAt place (x.result place desk).2 y t) :
    AddsAt place desk (x >>= fun _ => y) (s ++ t) := by
  obtain ⟨-, howed, htext⟩ := hx
  obtain ⟨hopened, howed', htext'⟩ := hy
  refine ⟨hopened, howed', ?_⟩
  -- The indentation comes before the first text only.
  have hnone : indentation place (x.result place desk).2.owed = "" := by
    rw [howed]
    rfl
  rw [hnone, htext, String.empty_append] at htext'
  simp only [String.append_assoc] at htext' ⊢
  exact htext'

theorem addsAt_congr (h : x.result place desk = y.result place desk)
    (hy : AddsAt place desk y text) : AddsAt place desk x text := by
  obtain ⟨hopened, howed, hwritten⟩ := hy
  rw [← h] at hopened howed hwritten
  exact ⟨hopened, howed, hwritten⟩

theorem Emit.addsAt_print (text : String) (h : desk.program.Open place.draft) :
    AddsAt place desk (print text) text := by
  have hwrite : ((print text).result place desk).2.program =
      { desk.program with
        drafts := desk.program.drafts.put place.draft (indentation place desk.owed ++ text) } := by
    show desk.program.write place.draft _ = _
    have htext : (if desk.owed then "".pushn '\t' place.tabs ++ text else text) =
        indentation place desk.owed ++ text := by
      unfold indentation
      split
      · rfl
      · rw [String.empty_append]
    rw [htext, Program.write_of_open _ h.unjoined]
  refine ⟨⟨?_, ?_⟩, rfl, ?_⟩
  · rw [hwrite]
    simpa using h.known
  · rw [hwrite]
    exact (Drafts.isJoined_put _ _ _ _).trans h.unjoined
  · rw [hwrite]
    exact Drafts.text_put_self _ _ h.known

/-- The action writes the text at the place and mentions classes at most, in any program that
mentions more classes than `p` at most. -/
def Says (p : Program) (place : Place) (x : Emit Unit) (text : String) : Prop :=
  ∀ desk : Desk, p.Mentions desk.program → desk.program.Open place.draft →
    AddsAt place desk x text ∧ p.Mentions (x.result place desk).2.program

theorem says_congr (h : ∀ desk : Desk, p.Mentions desk.program →
      x.result place desk = y.result place desk) (hy : Says p place y text) :
    Says p place x text := by
  intro desk hp hopen
  obtain ⟨hadds, hafter⟩ := hy desk hp hopen
  rw [← h desk hp] at hafter
  exact ⟨addsAt_congr (h desk hp) hadds, hafter⟩

theorem says_print (text : String) : Says p place (print text) text :=
  fun desk hp hopen =>
    ⟨addsAt_print text hopen, hp.trans (desk.program.mentions_write place.draft _)⟩

theorem says_seq (hx : Says p place x s) (hy : Says p place y t) :
    Says p place (x >>= fun _ => y) (s ++ t) := by
  intro desk hp hopen
  obtain ⟨hadds, hafter⟩ := hx desk hp hopen
  obtain ⟨hadds', hafter'⟩ := hy _ hafter hadds.opened
  exact ⟨addsAt_seq hadds hadds', hafter'⟩

/-- What is mentioned before a text is no part of it. -/
theorem says_mention {f : CompilationUnit → CompilationUnit}
    (hf : ∀ u : CompilationUnit, u.Mentions (f u)) (hx : Says p place x text) :
    Says p place (modifyUnit f >>= fun _ => x) text := by
  intro desk hp hopen
  obtain ⟨⟨hopened, howed, hwritten⟩, hafter⟩ :=
    hx ⟨desk.program.modifyUnit place.unit f, desk.owed⟩
      (hp.trans (desk.program.mentions_modifyUnit _ hf)) ⟨hopen.known, hopen.unjoined⟩
  exact ⟨⟨hopened, howed, hwritten⟩, hafter⟩

theorem says_plain (name : String) (there : Place) (q : Program) :
    Says p place (ident.plain name q there) (plainText q there name) := by
  unfold ident.plain plainText
  cases q.importName there (Go.title name) with
  | none => exact says_print _
  | some i =>
    dsimp only
    split
    · exact says_print _
    · cases i.qualified with
      | none => exact says_print _
      | some qualified =>
        exact says_mention (fun _ => ⟨rfl, fun _ h => h, NameSet.subset_insert _ _⟩) (says_print _)

/-- How a name is written, with the program and the place given. -/
def identAt (p : Program) (place : Place) (name : String) : Emit Unit :=
  if (place.receiver.map (·.name)) == some name then print "this"
  else
    match p.iota with
    | some n => if name == "iota" then print (toString n) else ident.plain name p place
    | none => ident.plain name p place

theorem says_ident (name : String) : Says p place (ident name) (identText p place name) := by
  intro desk hp hopen
  have hresult : (ident name).result place desk =
      (identAt desk.program place name).result place desk := rfl
  have hspoken : Says p place (identAt desk.program place name)
      (identText desk.program place name) := by
    unfold identAt identText
    split
    · exact says_print _
    · split
      · split
        · exact says_print _
        · exact says_plain name place _
      · exact says_plain name place _
  obtain ⟨hadds, hafter⟩ := hspoken desk hp hopen
  rw [← hresult] at hafter
  rw [← hp.identText place]
  exact ⟨addsAt_congr hresult hadds, hafter⟩

/-! ## Formulas -/

theorem expr_unary (release : Release) (implied : Option Go.Expr) (sign : Sign) (e : Go.Expr) :
    Conversion.expr release implied (.unary sign.go e) = (do
      print (unaryToken sign.go)
      Conversion.expr release none e) := by
  cases sign <;> rfl

theorem says_expr (release : Release) (f : Formula) (implied : Option Go.Expr) :
    Says p place (Conversion.expr release implied f.expr) (f.text (identText p place)) := by
  induction f generalizing implied with
  | name text => exact says_ident text
  | number text => exact says_print (intLit text)
  | paren inner ih =>
    rw [Formula.text, String.append_assoc]
    exact says_seq (says_print "(") (says_seq (ih none) (says_print ")"))
  | unary sign operand ih =>
    rw [Formula.expr, expr_unary]
    exact says_seq (says_print (unaryToken sign.go)) (ih none)
  | binary left op right ihl ihr =>
    rw [Formula.text, String.append_assoc]
    exact says_seq (ihl none) (says_seq (says_print _) (ihr none))

theorem isBlank_indentation (place : Place) (owed : Bool) :
    ∀ c ∈ (indentation place owed).toList, Java.isBlank c = true := by
  intro c hc
  unfold indentation at hc
  split at hc
  · rw [mem_pushn hc]
    decide
  · cases hc

namespace Formula

/-- The text that is written for a formula of Go is read by Java as the formula means exactly if no
sign stands right before the same sign, the levels of all operators agree and no name is a keyword
that makes it something else. Java has more levels, and no parentheses are added. -/
theorem formulas_are_read_as_meant_iff (release : Release) (implied : Option Go.Expr) (f : Formula)
    (hg : f.Grammatical) (hl : f.Lexed) (p : Program) (cursor : Cursor)
    (hknown : cursor.place.draft < p.drafts.next)
    (hopen : p.drafts.isJoined cursor.place.draft = false) :
    ∃ text, (p.emit cursor (Conversion.expr release implied f.expr)).2.drafts.text
        cursor.place.draft = p.drafts.text cursor.place.draft ++ text ∧
      (Java.read text = some (f.meaning (identText p cursor.place)) ↔
        f.SignsApart ∧ f.LevelsAgree ∧ f.NoKeywords (identText p cursor.place)) := by
  obtain ⟨hspoken, -⟩ := says_expr release f implied ⟨p, cursor.owed⟩ (.refl p) ⟨hknown, hopen⟩
  refine ⟨_, hspoken.written, ?_⟩
  exact read_text_iff hg (words_of_lexed hl p cursor.place)
    (isBlank_indentation cursor.place cursor.owed)

/-- The formula `a<<b + c`, which Java reads as `a << (b + c)`. -/
def shiftedSum : Formula := .binary (.binary (.name "a") .shl (.name "b")) .add (.name "c")

/-- The formula `-a*0o17 < b && (c &^ -d) != x`, which Java reads as Go does. -/
def guardedMask : Formula :=
  .binary
    (.binary (.binary (.unary .neg (.name "a")) .mul (.number "0o17")) .lt (.name "b")) .and
    (.binary (.paren (.binary (.name "c") .andNot (.unary .neg (.name "d")))) .ne (.name "x"))

/-- A program with one empty draft. -/
def onePage : Program := { drafts := Drafts.new {} }

/-- The start of an indented line of the draft. -/
def indentedLine : Cursor := { place := { draft := 0, tabs := 2, unit := 0, scope := 0 } }

theorem shiftedSum_is_regrouped_and_guardedMask_is_kept :
    (shiftedSum.Grammatical ∧ shiftedSum.Lexed ∧ ∃ text, (onePage.emit indentedLine
          (Conversion.expr (fun _ _ => pure ()) none shiftedSum.expr)).2.drafts.text 0 =
            onePage.drafts.text 0 ++ text ∧
        Java.read text ≠ some (shiftedSum.meaning (identText onePage indentedLine.place))) ∧
    (guardedMask.Grammatical ∧ guardedMask.Lexed ∧ ∃ text, (onePage.emit indentedLine
          (Conversion.expr (fun _ _ => pure ()) none guardedMask.expr)).2.drafts.text 0 =
            onePage.drafts.text 0 ++ text ∧ Java.read text =
          some (guardedMask.meaning (identText onePage indentedLine.place))) := by
  refine ⟨⟨by decide, by decide +kernel, ?_⟩, ⟨by decide, by decide +kernel, ?_⟩⟩
  · obtain ⟨text, hwritten, hiff⟩ := formulas_are_read_as_meant_iff (fun _ _ => pure ()) none
      shiftedSum (by decide) (by decide +kernel) onePage indentedLine (by decide) (by decide)
    refine ⟨text, hwritten, ?_⟩
    intro hread
    exact absurd (hiff.1 hread) (by decide)
  · obtain ⟨text, hwritten, hiff⟩ := formulas_are_read_as_meant_iff (fun _ _ => pure ()) none
      guardedMask (by decide) (by decide +kernel) onePage indentedLine (by decide) (by decide)
    exact ⟨text, hwritten, hiff.2 (by decide)⟩

end Formula

end GoToJava
