import GoToJava.Proofs.Java.Assignments
import GoToJava.Proofs.Program.Texts

/-!
Operands: names, numbers and elements of arrays with the operators of formulas. How an element is
written depends on the type of the whole, so its text is known where all declarations are known.
-/

namespace GoToJava

open Go (Expr)
open Emit Forms Java Program
open Java (Reads reads_append reads_of_step)

/-- An expression that only reads variables and elements of arrays. -/
inductive Operand where
  | name (text : String)
  | number (text : String)
  | element (array : String) (index : Operand)
  | paren (inner : Operand)
  | unary (sign : Sign) (operand : Operand)
  | binary (left : Operand) (op : Go.BinaryOp) (right : Operand)
  deriving DecidableEq, Repr

namespace Operand

def expr : Operand → Expr
  | name text => .ident text
  | number text => .lit .int text
  | element array index => .index (.ident array) index.expr
  | paren inner => .paren inner.expr
  | unary sign operand => .unary sign.go operand.expr
  | binary left op right => .binary left.expr op right.expr

/-- All names are identifiers of Go and all numbers are integer literals of Go. -/
def Lexed : Operand → Prop
  | name text => Go.Lexeme.identifier text.toList = some text.toList.length
  | number text => Go.Lexeme.int text.toList = some text.toList.length
  | element array index =>
    Go.Lexeme.identifier array.toList = some array.toList.length ∧ index.Lexed
  | paren inner => inner.Lexed
  | unary _ operand => operand.Lexed
  | binary left _ right => left.Lexed ∧ right.Lexed

instance decidableLexed : DecidablePred Lexed
  | name _ => inferInstanceAs (Decidable (_ = _))
  | number _ => inferInstanceAs (Decidable (_ = _))
  | element _ index =>
    have := decidableLexed index
    inferInstanceAs (Decidable (_ ∧ index.Lexed))
  | paren inner => decidableLexed inner
  | unary _ operand => decidableLexed operand
  | binary left _ right =>
    have := decidableLexed left
    have := decidableLexed right
    inferInstanceAs (Decidable (left.Lexed ∧ right.Lexed))

/-- The arrays that elements are taken of. -/
def arrays : Operand → List String
  | name _ | number _ => []
  | element array index => array :: index.arrays
  | paren inner => inner.arrays
  | unary _ operand => operand.arrays
  | binary left _ right => left.arrays ++ right.arrays

section Names

-- `names` says how names are written.
variable (names : String → String)

/-- The text of the operand. -/
def text : Operand → String
  | name text => names text
  | number text => intLit text
  | element array index => names array ++ ("[" ++ (index.text ++ "]"))
  | paren inner => "(" ++ (inner.text ++ ")")
  | unary sign operand => unaryToken sign.go ++ operand.text
  | binary left op right => left.text ++ ((" " ++ binaryToken op ++ " ") ++ right.text)

/-- All names and numbers are written as words. -/
def Words : Operand → Prop
  | name text => IsWord (names text)
  | number text => IsWord (intLit text)
  | element array index => IsWord (names array) ∧ index.Words
  | paren inner => inner.Words
  | unary _ operand => operand.Words
  | binary left _ right => left.Words ∧ right.Words

end Names

end Operand

/-! ## Nothing is written here -/

namespace Emit

variable {α : Type} {x : Emit α}

/-- The action writes nothing at its place, and owes nothing for it. -/
def Looks (x : Emit α) : Prop :=
  ∀ (place : Place) (desk : Desk), desk.program.Open place.draft →
    (x place desk).2.owed = desk.owed ∧ (x place desk).2.program.Open place.draft ∧
      (x place desk).2.program.drafts.text place.draft = desk.program.drafts.text place.draft

theorem Peeks.looks (h : Peeks x) : Looks x := by
  intro place desk hopen
  have hsame := (h.sketches place desk).drafts.others place.draft hopen.known id
  refine ⟨h.owed place desk, ⟨?_, ?_⟩, congrArg (·.text) hsame⟩
  · exact Nat.lt_of_lt_of_le hopen.known (h.sketches place desk).drafts.next
  · exact (h.sketches place desk).drafts.isJoined hopen.unjoined

theorem looks_inspect (h : Parallel .quiet {} [] [] Eq x x) : Looks (inspect x) :=
  (peeks_inspect h).looks

theorem looks_sourceType (e : Expr) : Looks (sourceType e) :=
  fun place desk h => looks_inspect (quiet_infer .atOnce e) place desk h

end Emit

theorem addsAt_look {α : Type} {look : Emit α} {f : α → Emit Unit} {place : Place} {desk : Desk}
    {text : String} (hl : Looks look) (hopen : desk.program.Open place.draft)
    (h : AddsAt place (look place desk).2 (f (look place desk).1) text) :
    AddsAt place desk (look >>= f) text := by
  obtain ⟨howed, -, hsame⟩ := hl place desk hopen
  refine ⟨h.opened, h.owed, h.written.trans ?_⟩
  rw [hsame, howed]

/-! ## Elements -/

/-- All declarations are known, and the type of the name is that of an array. -/
def Program.IsArray (p : Program) (place : Place) (name : String) : Prop :=
  p.phase ≠ .discovery ∧ ∃ length type, p.source? place (.ident name) =
    some (.arrayType length type)

variable {p : Program} {place : Place} {name text t s : String}

theorem defer_of_known {desk : Desk} {now : Emit Unit} (task : Task) (h : p.phase ≠ .discovery)
    (hp : p.Mentions desk.program) :
    (defer task now).result place desk = now.result place desk := by
  have hphase : desk.program.phase = p.phase := congrArg (·.phase) hp.same
  show defer task now place desk = _
  rw [defer_apply, hphase, if_pos (by simp [h])]
  rfl

/-- What comes after the type of an expression was looked up. -/
theorem says_source {f : Option Expr → Emit Unit} {e : Expr}
    (h : Says p place (f (p.source? place e)) text) : Says p place (sourceType e >>= f) text := by
  intro desk hp hopen
  have hquiet := answers_sourceType (W := .quiet) (K := {}) (a := []) trivial
    (e.spelled_of_all fun _ => False.elim)
  have hafter := hp.trans (glances_of_quiet hquiet place desk).mentions
  have htype : (sourceType e place desk).1 = p.source? place e :=
    sourceType_find.trans (source?_congr p.closed_everywhere hp.sameLore ⟨rfl, rfl, rfl⟩
      (e.spelled_of_all fun _ => trivial))
  rw [← htype] at h
  obtain ⟨hadds, hdone⟩ := h _ hafter (looks_sourceType e place desk hopen).2.1
  exact ⟨addsAt_look (looks_sourceType e) hopen hadds, hdone⟩

theorem says_elementNow {base index : Emit Unit} {i : Expr} (h : p.IsArray place name)
    (hbase : Says p place base s) (hindex : Says p place index t) :
    Says p place (elementNow ⟨.ident name, base⟩ ⟨i, index⟩) (s ++ ("[" ++ (t ++ "]"))) := by
  obtain ⟨-, length, type, htype⟩ := h
  refine says_source ?_
  rw [htype]
  exact says_seq hbase (says_seq (says_print "[") (says_seq hindex (says_print "]")))

namespace Operand

variable {names : String → String} {part : Java.Part} {s u : String} {c : Char} {o : Operand}

theorem says_expr (release : Release) (o : Operand) (implied : Option Expr)
    (h : ∀ a ∈ o.arrays, p.IsArray place a) :
    Says p place (Conversion.expr release implied o.expr) (o.text (identText p place)) := by
  induction o generalizing implied with
  | name text => exact says_ident text
  | number text => exact says_print (intLit text)
  | element array index ih =>
    have harray := h array List.mem_cons_self
    have hindex := ih none fun a ha => h a (List.mem_cons_of_mem _ ha)
    exact says_congr (fun _ => defer_of_known _ harray.1)
      (says_elementNow harray (says_ident array) hindex)
  | paren inner ih => exact says_seq (says_print "(") (says_seq (ih none h) (says_print ")"))
  | unary sign operand ih =>
    rw [expr, expr_unary]
    exact says_seq (says_print (unaryToken sign.go)) (ih none h)
  | binary left op right ihl ihr =>
    have hleft := ihl none fun a ha => h a (List.mem_append_left _ ha)
    have hright := ihr none fun a ha => h a (List.mem_append_right _ ha)
    exact says_seq hleft (says_seq (says_print _) hright)

/-! ## Tokens -/

theorem words_of_lexed (h : o.Lexed) (p : Program) (place : Place) :
    o.Words (identText p place) := by
  have hname : ∀ {text : String}, Go.Lexeme.identifier text.toList = some text.toList.length →
      IsWord (identText p place text) := fun h =>
    isWord_identText p place (Go.Lexeme.isWord_of_scan Go.Lexeme.scansWord_identifier h)
  induction o with
  | name text => exact hname h
  | number text => exact isWord_intLit (Go.Lexeme.isWord_of_scan Go.Lexeme.scansWord_int h)
  | element array index ih => exact ⟨hname h.1, ih h.2⟩
  | paren inner ih => exact ih h
  | unary sign operand ih => exact ih h
  | binary left op right ihl ihr => exact ⟨ihl h.1, ihr h.2⟩

open Formula (pendingPart reads_operand reads_sign reads_binaryToken toList_unaryToken)

/-- From `part` on the text is read as tokens that may stand on a side of an assignment. -/
def ReadsInner (part : Java.Part) (text : String) : Prop :=
  ∃ last ts, Reads part text.toList last ts ∧ ∀ t ∈ ts ++ last.tokens, t.IsInner

theorem readsInner_cons {next : Java.Part} {ts : List Java.Token} (hs : Reads part s.toList next ts)
    (hinner : ∀ t ∈ ts, t.IsInner) (hu : ReadsInner next u) : ReadsInner part (s ++ u) := by
  obtain ⟨last, us, hreads, hrest⟩ := hu
  rw [ReadsInner, String.toList_append]
  refine ⟨last, ts ++ us, reads_append hs hreads, ?_⟩
  rw [List.append_assoc]
  exact List.forall_mem_append.2 ⟨hinner, hrest⟩

theorem readsInner_append (hs : ReadsInner part s)
    (hu : ∀ last : Java.Part, (∀ t ∈ last.tokens, t.IsInner) → ReadsInner last u) :
    ReadsInner part (s ++ u) := by
  obtain ⟨last, ts, hreads, hinner⟩ := hs
  obtain ⟨hbefore, hlast⟩ := List.forall_mem_append.1 hinner
  exact readsInner_cons hreads hbefore (hu last hlast)

theorem isInner_separator (hpart : ∀ t ∈ part.tokens, t.IsInner) (hc : c ≠ ';') :
    ∀ t ∈ part.tokens ++ [Java.Token.separator c], t.IsInner := by
  refine List.forall_mem_append.2 ⟨hpart, ?_⟩
  intro t ht
  rw [List.mem_singleton.1 ht]
  exact ⟨Java.Token.noConfusion, fun h => hc (Java.Token.separator.inj h)⟩

theorem isInner_pending (pending : Option Java.UnaryOp) :
    ∀ t ∈ (pendingPart pending).tokens, t.IsInner := by
  cases pending with
  | none => simp [pendingPart, Java.Part.tokens]
  | some op =>
    intro t ht
    rw [List.mem_singleton.1 ht]
    refine ⟨?_, Java.Token.noConfusion⟩
    cases op <;> decide

theorem isInner_word (text : List Char) : (Java.Token.word text).IsInner :=
  ⟨Java.Token.noConfusion, Java.Token.noConfusion⟩

theorem isInner_operator (op : Go.BinaryOp) : ∀ t ∈ op.tokens, t.IsInner := by
  unfold Java.Token.IsInner
  cases op <;> decide

theorem readsInner_word (pending : Option Java.UnaryOp) (h : IsWord text) :
    ReadsInner (pendingPart pending) text := by
  refine ⟨_, _, reads_operand pending h, List.forall_mem_append.2 ⟨isInner_pending pending, ?_⟩⟩
  intro t ht
  rw [List.mem_singleton.1 ht]
  exact isInner_word _

theorem readsInner_closing (hc : isSeparator c = true) (hne : c ≠ ';')
    (hpart : ∀ t ∈ part.tokens, t.IsInner) : ReadsInner part (String.singleton c) := by
  rw [ReadsInner, String.toList_singleton]
  refine ⟨.nothing, _, reads_separator part hc, ?_⟩
  rw [Java.Part.tokens, List.append_nil]
  exact isInner_separator hpart hne

theorem readsInner_text (hw : o.Words names) (pending : Option Java.UnaryOp) :
    ReadsInner (pendingPart pending) (o.text names) := by
  induction o generalizing pending with
  | name text | number text => exact readsInner_word pending hw
  | element array index ih =>
    refine readsInner_append (readsInner_word pending hw.1) fun last hlast => ?_
    have hopen : Reads last "[".toList .nothing _ := reads_separator last (by decide)
    refine readsInner_cons hopen (isInner_separator hlast (by decide)) ?_
    exact readsInner_append (ih hw.2 none) fun last =>
      readsInner_closing (c := ']') (by decide) (by decide)
  | paren inner ih =>
    have hopen : Reads (pendingPart pending) "(".toList .nothing _ :=
      reads_separator (pendingPart pending) (by decide)
    refine readsInner_cons hopen (isInner_separator (isInner_pending pending) (by decide)) ?_
    exact readsInner_append (ih hw none) fun last =>
      readsInner_closing (c := ')') (by decide) (by decide)
  | unary sign operand ih =>
    -- the sign is a token of its own, or goes on with the operator before it
    have hsign := reads_sign pending sign
    rw [← toList_unaryToken] at hsign
    split at hsign
    · exact readsInner_cons hsign (fun t ht => by cases ht) (ih hw _)
    · exact readsInner_cons hsign (isInner_pending pending) (ih hw _)
  | binary left op right ihl ihr =>
    refine readsInner_append (ihl hw.1 pending) fun last hlast => ?_
    exact readsInner_cons (reads_binaryToken last op)
      (List.forall_mem_append.2 ⟨hlast, isInner_operator op⟩) (ihr hw.2 none)

end Operand

end GoToJava
